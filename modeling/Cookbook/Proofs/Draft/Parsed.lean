import Cookbook.Draft.Book
import Cookbook.Proofs.Instruction.ReadBack

/-!
# Cookbook.Proofs.Draft.Parsed

What is known of the recipes of a book that can be read.  Titles and statements
hold plain words only, no statement begins with `Serves`, and a recipe that
serves nobody is not followed by a title that does (`Readable`,
`MayPrecede`).  Every reading takes tokens off the front, so these facts hold
for each recipe of the book in turn (`readable_of_parse`).
-/

namespace Cookbook

open Text

/-! ## Plain words among tokens -/

theorem isPlain_of_not_isStray {l : Text} (hl : l.IsLexeme) (h0 : (0 : UInt8) ∉ l)
    (hbreak : (Token.ofLexeme l).isBreak = false) (hstray : (Token.ofLexeme l).isStray = false) :
    l.IsPlain := by
  rcases hl with hw | rfl | hg
  · refine ⟨hw, h0, fun hk => ?_⟩
    simp [Token.isStray, hk] at hstray
  · exact absurd hstray (by decide)
  · cases l with
    | nil => simp [Text.IsGap] at hg
    | cons b l =>
      have hb : b = lineFeed := by simpa using hg.1
      simp only [Token.isBreak, Token.kind_ofLexeme, Token.Kind.ofLexeme, hb] at hbreak
      grind

theorem Text.IsPlain.isBreak {l : Text} (h : l.IsPlain) : (Token.ofLexeme l).isBreak = false := by
  simp only [Token.isBreak, Token.kind_ofLexeme, Token.Kind.ofLexeme_of_isWordy h.isWordy,
    Token.Kind.ofDigits, Token.Kind.ofWord]
  grind

theorem Text.IsPlain.isStray {l : Text} (h : l.IsPlain) : (Token.ofLexeme l).isStray = false := by
  have hperiod : Token.Kind.ofLexeme l ≠ .period := by
    rw [ne_eq, Token.Kind.ofLexeme_eq_period_iff h.isLexeme]
    exact h.ne_fullStop
  have hexpected := h.expected
  unfold Token.isStray
  grind [Token.kind_ofLexeme]

/-- Only the word `Serves` is of the kind of its own. -/
theorem ofLexeme_eq_serves_iff {l : Text} (h : l.IsLexeme) :
    Token.Kind.ofLexeme l = .serves ↔ l = "Serves" := by
  constructor
  · intro hk
    cases l with
    | nil => exact absurd rfl h.ne_nil
    | cons b l =>
      rw [Token.Kind.ofLexeme] at hk
      simp only [Token.Kind.ofDigits, Token.Kind.ofWord] at hk
      repeat' split at hk
      all_goals first | assumption | cases hk
  · rintro rfl
    decide

/-! ## Tokens as they are scanned -/

/-- Tokens as scanning gives them. -/
structure Scanned (ts : List Token) : Prop where
  kind : ∀ t ∈ ts, t.kind = Token.Kind.ofLexeme t.lexeme
  spelled : Spelled (ts.map (·.lexeme))

theorem scanned_ofText (book : Text) : Scanned (TokenStream.ofText book).ahead where
  kind _ ht := Cursor.kind_of_mem_stream ht
  spelled := by
    rw [TokenStream.ofText, Cursor.map_lexeme_stream]
    exact spelled_lexemes (noNul_untilNul book)

namespace Scanned

variable {ts us : List Token} {t : Token}

theorem of_suffix (h : Scanned ts) (hs : us <:+ ts) : Scanned us := by
  obtain ⟨front, rfl⟩ := hs
  refine ⟨fun t ht => h.kind t (List.mem_append_right _ ht), ?_⟩
  have hsp := h.spelled
  rw [List.map_append] at hsp
  exact hsp.of_append.2

theorem of_cons (h : Scanned (t :: ts)) : Scanned ts := h.of_suffix (List.suffix_cons t ts)

theorem isLexeme (h : Scanned ts) (ht : t ∈ ts) : t.lexeme.IsLexeme :=
  h.spelled.isLexeme _ (List.mem_map_of_mem ht)

theorem kind_ne_finish (h : Scanned ts) (ht : t ∈ ts) : t.kind ≠ .finish := by
  rw [h.kind t ht, ne_eq, Token.Kind.ofLexeme_eq_finish_iff]
  exact (h.isLexeme ht).ne_nil

theorem isPlain (h : Scanned ts) (ht : t ∈ ts) (hbreak : t.isBreak = false)
    (hstray : t.isStray = false) : t.lexeme.IsPlain := by
  have hkind := h.kind t ht
  refine isPlain_of_not_isStray (h.isLexeme ht) (h.spelled.noNul _ (List.mem_map_of_mem ht)) ?_ ?_
  · simpa only [Token.isBreak, Token.kind_ofLexeme, hkind] using hbreak
  · simpa only [Token.isStray, Token.kind_ofLexeme, hkind] using hstray

/-- Two ends of lines do not meet. -/
theorem isLineEnd_of_cons_cons {u : Token} (h : Scanned (t :: u :: ts)) (ht : t.isLineEnd) :
    u.isLineEnd = false := by
  have hgap {v : Token} (hv : v ∈ t :: u :: ts) (hend : v.isLineEnd) : v.lexeme.IsGap := by
    rw [← isLineEnd_ofLexeme_iff (h.isLexeme hv)]
    simpa only [Token.isLineEnd, Token.kind_ofLexeme, h.kind v hv] using hend
  have hapart := h.spelled.apart
  rw [List.map_cons, List.map_cons, List.isChain_cons_cons] at hapart
  cases hu : u.isLineEnd with
  | false => rfl
  | true => exact absurd ⟨hgap (by simp) ht, hgap (by simp) hu⟩ hapart.1

theorem map_bare (h : ∀ t ∈ ts, t.kind = Token.Kind.ofLexeme t.lexeme) :
    ts.map Token.bare = (ts.map (·.lexeme)).map Token.ofLexeme := by
  rw [List.map_map]
  refine List.map_congr_left fun t ht => ?_
  simp only [Token.bare, Function.comp_apply, Token.ofLexeme, h t ht]

end Scanned

/-! ## Statements -/

/-- An instruction whose statement is made of plain words and a period. -/
structure Instruction.IsWritten (i : Instruction) : Prop where
  ne_nil : sentenceLexemes i.sentence ≠ []
  isPlain : ∀ w ∈ sentenceLexemes i.sentence, w.IsPlain
  sentence_eq : i.sentence = spaced (sentenceLexemes i.sentence) ++ [fullStop]

/-- An instruction whose statement asks for it and does not begin with
`Serves`. -/
structure Instruction.Sayable (i : Instruction) : Prop extends i.IsWritten where
  not_serves : (sentenceLexemes i.sentence).head? ≠ some (ofString "Serves")
  asks : Asks (sentenceLexemes i.sentence) i.unplaced

/-- The statement of a loop begins with its verb, every other one with a word
that is not `Serves`. -/
theorem Spoken.head?_words_ne {X : List Text} {i : Instruction} (h : Spoken X i)
    (hloop : i.action = .loopStart ∨ i.action = .loopEnd → i.name ≠ "Serves") :
    (i.words X).head? ≠ some (ofString "Serves") := by
  cases h with
  | @working _ a o w b ha hX hadd hb =>
    rw [Instruction.words, Instruction.opening_of_bowlWords? ha, List.singleton_append,
      List.head?_cons]
    cases a <;> simp only [Action.bowlWords?, reduceCtorEq, Option.some.injEq, Prod.mk.injEq] at ha
    all_goals
      obtain ⟨rfl, rfl⟩ := ha
      decide
  | @inBowl a b ha hb =>
    simp only [List.mem_cons, List.not_mem_nil, or_false] at ha
    rcases ha with rfl | rfl | rfl | rfl <;> simp [Instruction.words, Instruction.opening]
  | loopStart hX hV hword hfirst =>
    simpa [Instruction.words, Instruction.opening] using hloop (.inl rfl)
  | loopEnd hX hV hword hk hkword hlower hfirst =>
    have hname := hloop (.inr rfl)
    simp only [Instruction.words, Instruction.opening]
    split <;> simpa using hname
  | take | liquefy | stir | pour | setAside | serveWith | refrigerate | refrigerateFor =>
    simp [Instruction.words, Instruction.opening]

theorem sayable_of_spoken {X : List Text} {i : Instruction} (hspoken : Spoken X i.unplaced)
    (hplain : ∀ w ∈ X, w.IsPlain)
    (hname : i.action = .loopStart ∨ i.action = .loopEnd → i.name ≠ "Serves") : i.Sayable := by
  have hspelled := spelled_of_isPlain hplain
  have hstop : [fullStop] ∉ X := fun hmem => (hplain _ hmem).ne_fullStop rfl
  have hwords : sentenceLexemes i.sentence = i.unplaced.words X :=
    hspoken.sentenceLexemes_sentence hspelled hstop
  refine ⟨⟨?_, ?_, ?_⟩, ?_, ?_⟩
  · rw [hwords]
    exact i.unplaced.words_ne_nil X
  · rw [hwords]
    intro w hw
    exact (hspoken.mem_words hw).elim (hplain w) id
  · rw [hwords]
    have hwording := hspoken.wording_eq_spaced hspelled
    exact congrArg (· ++ [fullStop]) hwording
  · rw [hwords]
    exact hspoken.head?_words_ne hname
  · rw [hwords]
    exact hspoken.asks

theorem sayable_of_read {s : List Token} {i : Instruction}
    (hs : ∀ t ∈ s, t.kind = Token.Kind.ofLexeme t.lexeme ∧ t.lexeme.IsPlain)
    (hfirst : ∀ t, s.head? = some t → t.kind ≠ .serves)
    (h : Instruction.read s = .ok (some i)) : i.Sayable := by
  have hplain : ∀ w ∈ s.map (·.lexeme), w.IsPlain :=
    List.forall_mem_map.2 fun t ht => (hs t ht).2
  have hbare := Scanned.map_bare fun t ht => (hs t ht).1
  obtain ⟨-, hasks⟩ := (read_eq_ok_some_iff hbare).1 ⟨i, h, rfl⟩
  obtain ⟨X, hX, hspoken, hverb⟩ := spokenIn_of_asks (spelled_of_isPlain hplain) hasks
  refine sayable_of_spoken hspoken (fun w hw => hplain w (hX.subset hw)) fun hloop hserves => ?_
  have hhead : (s.map (·.lexeme)).head? = some i.name := hverb hloop
  rw [hserves, List.head?_map, Option.map_eq_some_iff] at hhead
  obtain ⟨t, ht, hlex⟩ := hhead
  refine hfirst t ht ?_
  rw [(hs t (List.mem_of_mem_head? ht)).1, hlex]
  decide

namespace Grammar

open Reading

/-- Whether a method may end before some tokens: at the end of the book, a blank
line or `Serves`. -/
def EndsMethod (rest : List Token) : Prop :=
  rest = [] ∨ ∃ t rest', rest = t :: rest' ∧ (t.kind = .blankLine ∨ t.kind = .serves)

/-- The statements of a method are sayable. -/
theorem sayable_of_statements {tokens sentence rest : List Token} {is : List Instruction}
    (h : statements tokens sentence = .ok (is, rest)) (hs : Scanned tokens)
    (hsentence : ∀ t ∈ sentence, t.kind = Token.Kind.ofLexeme t.lexeme ∧ t.lexeme.IsPlain)
    (hfirst : ∀ t, sentence.head? = some t → t.kind ≠ .serves) :
    (∀ i ∈ is, i.Sayable) ∧ EndsMethod rest := by
  induction tokens generalizing sentence is rest with
  | nil =>
    unfold statements at h
    cases hlast : sentence.getLast? with
    | some last => simp [hlast] at h
    | none =>
      simp only [hlast] at h
      cases h
      exact ⟨by simp, .inl rfl⟩
  | cons t tokens ih =>
    -- a word is added to a sentence that it does not begin as `Serves` does
    have hadd (hbreak : t.isBreak = false) (hstray : t.isStray = false)
        (hne : sentence ≠ [] ∨ t.kind ≠ .serves)
        (h : statements tokens (sentence ++ [t]) = .ok (is, rest)) :
        (∀ i ∈ is, i.Sayable) ∧ EndsMethod rest := by
      have hmem : t ∈ t :: tokens := List.mem_cons_self
      refine ih h hs.of_cons ?_ ?_
      · refine List.forall_mem_append.2 ⟨hsentence, List.forall_mem_singleton.2 ⟨?_, ?_⟩⟩
        · exact hs.kind t hmem
        · exact hs.isPlain hmem hbreak hstray
      · intro u hu
        cases sentence with
        | nil =>
          have htu : t = u := by simpa using hu
          exact htu ▸ hne.resolve_left (by simp)
        | cons v sentence => exact hfirst u (by simpa using hu)
    unfold statements at h
    cases hk : t.kind with
    | lineBreak =>
      simp only [hk] at h
      exact ih h hs.of_cons hsentence hfirst
    | finish => exact absurd hk (hs.kind_ne_finish List.mem_cons_self)
    | unexpected => simp [hk] at h
    | blankLine =>
      simp only [hk] at h
      cases hlast : sentence.getLast? with
      | some last => simp [hlast] at h
      | none =>
        simp only [hlast] at h
        cases h
        exact ⟨by simp, .inr ⟨t, tokens, rfl, .inl hk⟩⟩
    | serves =>
      simp only [hk] at h
      cases sentence with
      | nil =>
        simp only [List.isEmpty_nil, if_true] at h
        cases h
        exact ⟨by simp, .inr ⟨t, tokens, rfl, .inr hk⟩⟩
      | cons v sentence =>
        exact hadd (by simp [Token.isBreak, hk]) (by simp [Token.isStray, hk]) (.inl (by simp)) h
    | period =>
      simp only [hk] at h
      cases sentence with
      | nil => cases h
      | cons v sentence =>
        simp only at h
        cases hread : Instruction.read (v :: sentence) with
        | error e => simp [hread] at h
        | ok found =>
          cases found with
          | none => simp [hread] at h
          | some i =>
            simp only [hread] at h
            cases hrest : statements tokens [] with
            | error e => simp [hrest] at h
            | ok r =>
              simp only [hrest] at h
              cases h
              obtain ⟨hsay, hend⟩ := ih hrest hs.of_cons (by simp) (by simp)
              exact ⟨List.forall_mem_cons.2 ⟨sayable_of_read hsentence hfirst hread, hsay⟩, hend⟩
    | word | number | ingredients | method =>
      simp only [hk] at h
      exact hadd (by simp [Token.isBreak, hk]) (by simp [Token.isStray, hk]) (.inr (by simp [hk])) h

end Grammar

/-! ## Titles and diners -/

/-- A title that is made of plain words with single spaces between them. -/
structure IsTitle (title : Text) : Prop where
  ne_nil : lexemes title ≠ []
  isPlain : ∀ w ∈ lexemes title, w.IsPlain
  eq_spaced : title = spaced (lexemes title)

theorem isTitle_spaced {ws : List Text} (hne : ws ≠ []) (h : ∀ w ∈ ws, w.IsPlain) :
    IsTitle (spaced ws) := by
  refine ⟨?_, ?_, ?_⟩ <;> rw [lexemes_spaced (spelled_of_isPlain h)]
  · exact hne
  · exact h

namespace Grammar

open Reading

/-- A title begins with the first of the tokens. -/
theorem isTitle_of_title {s s' : TokenStream} {r : Text × Location} (h : title s = .ok (r, s'))
    (hs : Scanned s.ahead) :
    IsTitle r.1 ∧ (lexemes r.1).head? = s.ahead.head?.map (·.lexeme) := by
  obtain ⟨first, _, hpeek, h⟩ := bind_eq_ok_iff.1 h
  cases hpeek
  obtain ⟨tokens, s₁, hline, h⟩ := bind_eq_ok_iff.1 h
  simp only [line, takeWhile_def, Except.ok.injEq, Prod.mk.injEq] at hline
  obtain ⟨rfl, rfl⟩ := hline
  have hfront : s.ahead.takeWhile (fun t => !t.isBreak) <+: s.ahead := List.takeWhile_prefix _
  have hbreak : ∀ t ∈ s.ahead.takeWhile (fun t => !t.isBreak), t.isBreak = false := by
    intro t ht
    simpa using List.all_eq_true.1 List.all_takeWhile t ht
  generalize s.ahead.takeWhile (fun t => !t.isBreak) = tokens at h hfront hbreak
  cases hlast : tokens.getLast? with
  | none =>
    simp only [hlast] at h
    obtain ⟨_, _, _, h⟩ := bind_eq_ok_iff.1 h
    simp [refuse] at h
  | some last =>
    simp only [hlast] at h
    split at h
    · simp [refuse] at h
    · next hwords =>
      simp only [Bool.or_eq_true, not_or, List.isEmpty_iff] at hwords
      cases hfind : tokens.dropLast.find? Token.isStray with
      | some t => simp [hfind, refuse] at h
      | none =>
        simp only [hfind, pure_def, Except.ok.injEq, Prod.mk.injEq] at h
        rw [← h.1]
        have hmem : ∀ t ∈ tokens.dropLast, t ∈ tokens := fun t ht => List.dropLast_subset _ ht
        have hplain : ∀ t ∈ tokens.dropLast, t.lexeme.IsPlain := by
          intro t ht
          have hstray := List.find?_eq_none.1 hfind t ht
          exact hs.isPlain (hfront.subset (hmem t ht)) (hbreak t (hmem t ht))
            (by simpa using hstray)
        have hjoin : Token.join tokens.dropLast = spaced (tokens.dropLast.map (·.lexeme)) :=
          Token.join_eq_spaced fun t ht => (hplain t ht).isLexeme.ne_nil
        have hplain' : ∀ w ∈ tokens.dropLast.map (·.lexeme), w.IsPlain :=
          List.forall_mem_map.2 hplain
        simp only [hjoin]
        refine ⟨isTitle_spaced (fun hnil => hwords.1 (List.map_eq_nil_iff.1 hnil)) hplain', ?_⟩
        rw [lexemes_spaced (spelled_of_isPlain hplain'), List.head?_map]
        obtain ⟨t, words, hcons⟩ := List.exists_cons_of_ne_nil hwords.1
        have hhead : t :: words <+: s.ahead :=
          hcons ▸ (List.dropLast_prefix tokens).trans hfront
        obtain ⟨rest, hrest⟩ := hhead
        rw [hcons, ← hrest]
        rfl

/-- Whether no number of diners stands ahead. -/
def ServesNobody (rest : List Token) : Prop :=
  rest = [] ∨
    ∃ t rest', rest = t :: rest' ∧ t.kind = .blankLine ∧
      ∀ u, rest'.head? = some u → u.kind ≠ .serves

/-- A recipe is for at least one diner, or no number of diners is there. -/
theorem serves_cases {s s' : TokenStream} {v : Option Int64} (h : serves s = .ok (v, s'))
    (hend : EndsMethod s.ahead) :
    (∃ n, v = some n ∧ 1 ≤ n) ∨ v = none ∧ ServesNobody s'.ahead := by
  obtain ⟨_, s₁, hto, h⟩ := bind_eq_ok_iff.1 h
  obtain ⟨_, _, hpeek, h⟩ := bind_eq_ok_iff.1 h
  cases hpeek
  split at h
  · obtain ⟨_, _, -, h⟩ := bind_eq_ok_iff.1 h
    obtain ⟨count, _, -, h⟩ := bind_eq_ok_iff.1 h
    cases hk : count.kind with
    | number n =>
      simp only [hk] at h
      by_cases hn : n < 1
      · simp [hn, refuse] at h
      · rw [if_neg hn] at h
        obtain ⟨stop, _, -, h⟩ := bind_eq_ok_iff.1 h
        split at h
        · obtain ⟨t, _, -, h⟩ := bind_eq_ok_iff.1 h
          split at h
          · simp only [pure_def, Except.ok.injEq, Prod.mk.injEq] at h
            exact .inl ⟨n, h.1.symm, Int64.not_lt.1 hn⟩
          · simp [refuse] at h
        · simp [refuse] at h
    | word | period | lineBreak | blankLine | ingredients | method | serves | finish | unexpected =>
      simp [hk, refuse] at h
  · next hserves =>
    simp only [pure_def, Except.ok.injEq, Prod.mk.injEq] at h
    obtain ⟨rfl, rfl⟩ := h
    refine .inr ⟨rfl, ?_⟩
    simp only [toServes] at hto
    split at hto
    · next hcond =>
      cases hto
      exact absurd hcond.2 hserves
    · next hcond =>
      cases hto
      rcases hend with hnil | ⟨t, rest', heq, hk | hk⟩
      · exact .inl hnil
      · refine .inr ⟨t, rest', heq, hk, fun u hu huk => hcond ?_⟩
        rw [List.head?_eq_some_iff] at hu
        obtain ⟨rest'', rfl⟩ := hu
        simp [TokenStream.peek, TokenStream.drop, heq, hk, huk]
      · exact absurd hk (by simpa [TokenStream.peek, heq] using hserves)

end Grammar

/-! ## Recipes and books -/

/-- A recipe whose title and statements can be written and read again. -/
structure Draft.Readable (d : Draft) : Prop where
  title : IsTitle d.title
  method_ne_nil : d.method ≠ []
  sayable : ∀ i ∈ d.method, i.Sayable
  diners : ∀ n, d.serves = some n → 1 ≤ n

/-- Whether the title of a second recipe cannot be taken for the diners of the
first. -/
def Draft.MayPrecede (d d' : Draft) : Prop :=
  d.serves = none → (lexemes d'.title).head? ≠ some (ofString "Serves")

namespace Grammar

open Reading

theorem shrinks_title : Shrinks title := by
  refine shrinks_bind shrinks_peek fun _ => shrinks_bind shrinks_line fun tokens => ?_
  cases tokens.getLast? with
  | none => exact shrinks_bind shrinks_peek fun _ => shrinks_refuse _ _
  | some last =>
    simp only
    split
    · exact shrinks_refuse _ _
    · cases tokens.dropLast.find? Token.isStray with
      | some t => exact shrinks_refuse _ _
      | none => exact shrinks_pure _

theorem sayable_of_method {s s' : TokenStream} {is : List Instruction}
    (h : method s = .ok (is, s')) (hs : Scanned s.ahead) :
    is ≠ [] ∧ (∀ i ∈ is, i.Sayable) ∧ EndsMethod s'.ahead := by
  obtain ⟨here, _, hhere, h⟩ := bind_eq_ok_iff.1 h
  simp only [atHeading_def, Except.ok.injEq, Prod.mk.injEq] at hhere
  obtain ⟨-, rfl⟩ := hhere
  split at h
  · obtain ⟨_, s₁, hheading, h⟩ := bind_eq_ok_iff.1 h
    obtain ⟨js, s₂, hstatements, h⟩ := bind_eq_ok_iff.1 h
    simp only [ofTokens_def] at hstatements
    cases hread : statements s₁.ahead [] with
    | error e => simp [hread] at hstatements
    | ok r =>
      simp only [hread, Except.ok.injEq, Prod.mk.injEq] at hstatements
      obtain ⟨rfl, rfl⟩ := hstatements
      have hscanned := hs.of_suffix (shrinks_heading _ _ _ _ hheading)
      have hsay := sayable_of_statements hread hscanned (by simp) (by simp)
      split at h
      · obtain ⟨_, _, _, h⟩ := bind_eq_ok_iff.1 h
        simp [refuse] at h
      · next hne =>
        simp only [pure_def, Except.ok.injEq, Prod.mk.injEq] at h
        obtain ⟨rfl, rfl⟩ := h
        exact ⟨by simpa using hne, hsay⟩
  · obtain ⟨_, _, _, h⟩ := bind_eq_ok_iff.1 h
    simp [refuse] at h

/-- A recipe that is read is readable; one that serves nobody is followed by
nothing that says otherwise. -/
theorem readable_of_recipe {s s' : TokenStream} {d : Draft} (h : recipe s = .ok (d, s'))
    (hs : Scanned s.ahead) :
    d.Readable ∧ (lexemes d.title).head? = s.ahead.head?.map (·.lexeme) ∧
      (d.serves = none → ServesNobody s'.ahead) := by
  obtain ⟨r, s₁, htitle, h⟩ := bind_eq_ok_iff.1 h
  obtain ⟨_, s₂, hline, h⟩ := bind_eq_ok_iff.1 h
  obtain ⟨_, s₃, hcomment, h⟩ := bind_eq_ok_iff.1 h
  obtain ⟨_, s₄, hingredients, h⟩ := bind_eq_ok_iff.1 h
  obtain ⟨_, s₅, htime, h⟩ := bind_eq_ok_iff.1 h
  obtain ⟨_, s₆, hoven, h⟩ := bind_eq_ok_iff.1 h
  obtain ⟨is, s₇, hmethod, h⟩ := bind_eq_ok_iff.1 h
  obtain ⟨v, s₈, hserves, h⟩ := bind_eq_ok_iff.1 h
  simp only [pure_def, Except.ok.injEq, Prod.mk.injEq] at h
  obtain ⟨rfl, rfl⟩ := h
  obtain ⟨hplain, hfirst⟩ := isTitle_of_title htitle hs
  have hsuffix : s₆.ahead <:+ s.ahead :=
    (shrinks_whenHere _ (shrinks_atWords _ _) shrinks_oven _ _ _ hoven).trans
      ((shrinks_whenHere _ (shrinks_atWords _ _) shrinks_cookingTime _ _ _ htime).trans
        ((shrinks_whenHere _ (shrinks_atHeading _) shrinks_ingredients _ _ _ hingredients).trans
          ((shrinks_optionalComment _ _ _ hcomment).trans
            ((shrinks_newLineAfter _ _ _ _ hline).trans (shrinks_title _ _ _ htitle)))))
  obtain ⟨hne, hsay, hend⟩ := sayable_of_method hmethod (hs.of_suffix hsuffix)
  refine ⟨⟨hplain, hne, hsay, ?_⟩, hfirst, ?_⟩
  · intro n hn
    rcases serves_cases hserves hend with ⟨m, rfl, hm⟩ | ⟨rfl, -⟩
    · cases hn
      exact hm
    · cases hn
  · intro hnone
    rcases serves_cases hserves hend with ⟨m, rfl, -⟩ | ⟨-, hnobody⟩
    · cases hnone
    · exact hnobody

/-- Behind a recipe that serves nobody the next title does not begin with
`Serves`. -/
theorem head?_ne_of_servesNobody {rest : List Token} (h : ServesNobody rest) (hs : Scanned rest) :
    (rest.dropWhile Token.isLineEnd).head?.map (·.lexeme) ≠ some (ofString "Serves") := by
  rcases h with rfl | ⟨t, rest', rfl, hk, hnext⟩
  · simp
  · have ht : t.isLineEnd := by simp [Token.isLineEnd, hk]
    rw [List.dropWhile_cons, if_pos ht]
    cases rest' with
    | nil => simp
    | cons u rest' =>
      rw [List.dropWhile_cons, if_neg (by simp [hs.isLineEnd_of_cons_cons ht]), List.head?_cons,
        Option.map_some, ne_eq, Option.some.injEq]
      intro hlex
      refine hnext u rfl ?_
      rw [hs.kind u (by simp), hlex]
      decide

/-- Recipes that are readable one behind the other, of which the first begins
with the first of some tokens. -/
structure ReadableFrom (ts : List Token) (ds : List Draft) : Prop where
  readable : ∀ d ∈ ds, d.Readable
  mayPrecede : ds.IsChain Draft.MayPrecede
  first : ∀ d, ds.head? = some d → (lexemes d.title).head? = ts.head?.map (·.lexeme)

theorem ReadableFrom.cons {s s' : TokenStream} {d : Draft} {ds : List Draft}
    (h : ReadableFrom (s'.ahead.dropWhile Token.isLineEnd) ds) (hrecipe : recipe s = .ok (d, s'))
    (hs : Scanned s.ahead) (hs' : Scanned s'.ahead) : ReadableFrom s.ahead (d :: ds) := by
  obtain ⟨hreadable, hfirst, hnobody⟩ := readable_of_recipe hrecipe hs
  refine ⟨List.forall_mem_cons.2 ⟨hreadable, h.readable⟩, ?_, ?_⟩
  · cases ds with
    | nil => exact .singleton d
    | cons d' ds =>
      refine List.isChain_cons_cons.2 ⟨fun hnone => ?_, h.mayPrecede⟩
      rw [h.first d' rfl]
      exact head?_ne_of_servesNobody (hnobody hnone) hs'
  · intro d₁ hd₁
    rw [List.head?_cons, Option.some.injEq] at hd₁
    rw [← hd₁, hfirst]

theorem shrinks_recipe : Shrinks recipe := shrinks_bind shrinks_title fun _ => shrinks_body _ _

theorem readable_of_moreRecipes {s : TokenStream} {ds : List Draft} (h : moreRecipes s = .ok ds)
    (hs : Scanned s.ahead) : ReadableFrom (s.ahead.dropWhile Token.isLineEnd) ds := by
  induction s using moreRecipes_induction generalizing ds with
  | last s hahead =>
    rw [moreRecipes_of_isLineEnd hahead] at h
    cases h
    rw [hahead]
    exact ⟨by simp, .nil, by simp⟩
  | lineBreak s t rest hahead hblank =>
    rw [moreRecipes_of_lineBreak hahead hblank] at h
    cases h
  | blankLine s t rest hahead hblank ih =>
    rw [moreRecipes_of_blankLine hahead hblank] at h
    obtain ⟨d, s₁, ds', hrecipe, hmore, rfl⟩ := recipes_eq_ok_iff.1 h
    have hs₀ := hs.of_suffix (List.dropWhile_suffix Token.isLineEnd)
    have hs₁ : Scanned s₁.ahead := hs₀.of_suffix (shrinks_recipe _ _ _ hrecipe)
    exact (ih d s₁ hrecipe hmore hs₁).cons hrecipe hs₀ hs₁

/-- A book begins with a recipe, behind the ends of lines in front of it. -/
theorem exists_recipe_of_book {s : TokenStream} {ds : List Draft} (h : book s = .ok ds) :
    ∃ d s₂ ds', recipe { s with ahead := s.ahead.dropWhile Token.isLineEnd } = .ok (d, s₂) ∧
      moreRecipes s₂ = .ok ds' ∧ ds = d :: ds' := by
  simp only [book] at h
  split at h
  · cases h
  · obtain ⟨d, s₂, ds', hrecipe, hmore, rfl⟩ := recipes_eq_ok_iff.1 h
    exact ⟨d, s₂, ds', hrecipe, hmore, rfl⟩

/-- The recipes of a book are readable one behind the other. -/
theorem readable_of_book {s : TokenStream} {ds : List Draft} (h : book s = .ok ds)
    (hs : Scanned s.ahead) : ReadableFrom (s.ahead.dropWhile Token.isLineEnd) ds := by
  obtain ⟨d, s₂, ds', hrecipe, hmore, rfl⟩ := exists_recipe_of_book h
  have hs₁ := hs.of_suffix (List.dropWhile_suffix Token.isLineEnd)
  have hs₂ : Scanned s₂.ahead := hs₁.of_suffix (shrinks_recipe _ _ _ hrecipe)
  exact (readable_of_moreRecipes hmore hs₂).cons hrecipe hs₁ hs₂

end Grammar

/-- The recipes of a text are readable, and none can be taken for the end of
the one before it. -/
theorem readable_of_parse {text : Text} {ds : List Draft} (h : Draft.parse text = .ok ds) :
    (∀ d ∈ ds, d.Readable) ∧ ds.IsChain Draft.MayPrecede := by
  have hfrom := Grammar.readable_of_book h (scanned_ofText text)
  exact ⟨hfrom.readable, hfrom.mayPrecede⟩

end Cookbook
