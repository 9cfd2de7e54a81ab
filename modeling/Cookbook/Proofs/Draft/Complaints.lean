import Cookbook.CommandLine
import Cookbook.Draft.Proofread
import Cookbook.Proofs.Draft.Citations
import Cookbook.Proofs.Draft.Respacing

/-!
# Cookbook.Proofs.Draft.Complaints

A text that is refused is refused with one line that says where and why
(`refusals_reported`).  That the line is written once is known of every part
(`Draft.proofread_eq`), and that it points at a token is (`exists_token_of_parse`);
left is that a statement is refused at its first token.

`Draft.ComesTo` says that reading a text comes to a statement: all recipes and
statements in front of it are read.  Reading goes on behind what it has read as if
it began there (`Grammar.statements_append_of_error`), so the statement is refused
in its method, the method with its recipe, and the recipe with its book.
-/

namespace Cookbook

open Text

/-! ## Statements that are refused -/

/-- Why a statement is refused: no phrase fits it, or the one that does objects to
its number. -/
inductive Phrase.Refuses (sentence : List Token) : ParseError.Cause → Prop where
  | unknown (h : find? sentence = none) :
    Refuses sentence (.unknownStatement (Token.join sentence))
  | objection {p : Phrase} {c : Captures} {cause : ParseError.Cause}
    (h : find? sentence = some (p, c)) (hobjection : p.objection? c = some cause) :
    Refuses sentence cause

/-- Reading a statement that is refused gives nothing, or an objection at its first
token. -/
theorem Phrase.refuses_iff {first : Token} {others : List Token} {cause : ParseError.Cause} :
    Refuses (first :: others) cause ↔
      Instruction.read (first :: others) = .ok none ∧
          cause = .unknownStatement (Token.join (first :: others)) ∨
        Instruction.read (first :: others) = .error (first.error cause) := by
  rw [Instruction.read]
  constructor
  · intro h
    cases h with
    | unknown h =>
      rw [h]
      exact .inl ⟨rfl, rfl⟩
    | objection h hobjection =>
      rw [h]
      simp only [hobjection, or_true]
  · intro h
    cases hfind : Phrase.find? (first :: others) with
    | none =>
      simp only [hfind, true_and, reduceCtorEq, or_false] at h
      exact h ▸ .unknown hfind
    | some found =>
      obtain ⟨p, c⟩ := found
      simp only [hfind] at h
      cases hobjection : p.objection? c with
      | none => simp [hobjection] at h
      | some cause' =>
        simp only [hobjection, reduceCtorEq, false_and, false_or, Except.error.injEq] at h
        obtain rfl : cause' = cause := congrArg ParseError.cause h
        exact .objection hfind hobjection

namespace Grammar

open Reading

variable {s s' s₁ : TokenStream} {e : ParseError}

/-- Whether reading recipes comes to a statement: those before its own are read, and
of its own what stands in front of the statements, and the statements before it. -/
inductive Reaches : TokenStream → TokenStream → Prop where
  | statement {s s' : TokenStream} {done : List Token} {d : Draft} {is : List Instruction}
    (hpreamble : preamble s = .ok (d, s'.push done)) (hdone : statements done [] = .ok (is, [])) :
    Reaches s s'
  | recipe {s s₁ s' : TokenStream} {gap : List Token} {d : Draft}
    (hrecipe : recipe s = .ok (d, s₁.push gap)) (hends : ∀ t ∈ gap, t.isLineEnd)
    (hblank : .blankLine ∈ gap.map (·.kind)) (h : Reaches s₁ s') : Reaches s s'

/-- Behind statements that are read, reading goes on afresh. -/
theorem statements_append_of_error {done rest sentence : List Token} {is : List Instruction}
    (hdone : statements done sentence = .ok (is, [])) (hrest : statements rest [] = .error e) :
    statements (done ++ rest) sentence = .error e := by
  fun_induction statements done sentence generalizing is with
  | case1 | case4 | case5 | case6 | case7 | case8 | case9 | case11 => cases hdone
  | case2 sentence hlast =>
    rw [List.getLast?_eq_none_iff] at hlast
    rwa [List.nil_append, hlast]
  | case3 t done sentence hk ih =>
    rw [List.cons_append, statements_of_lineBreak hk]
    exact ih hdone
  | case10 t done hk first others ih =>
    obtain ⟨found, hread, hdone⟩ := Refusing.bind_eq_ok_iff.1 hdone
    cases found with
    | none => cases hdone
    | some i =>
      obtain ⟨⟨is', done'⟩, hmore, hdone⟩ := Refusing.bind_eq_ok_iff.1 hdone
      cases hdone
      rw [List.cons_append, statements.eq_def]
      simp only [hk, hread, ih hmore]
      rfl
  | case12 t done sentence hk hne ih =>
    rw [List.cons_append, statements.eq_def]
    simp only [hk]
    rw [if_neg hne]
    exact ih hdone
  | case13 t done sentence hbreak hblank hfinish hunexpected hperiod hserves ih =>
    rw [List.cons_append, statements.eq_def]
    have hih := ih hdone
    cases hk : t.kind with
    | lineBreak => exact absurd hk hbreak
    | blankLine => exact absurd hk hblank
    | finish => exact absurd hk hfinish
    | unexpected => exact absurd hk hunexpected
    | period => exact absurd hk hperiod
    | serves => exact absurd hk hserves
    | word | number | ingredients | method => simpa only [hk] using hih

/-- Line breaks aside, the tokens up to a period are gathered. -/
theorem statements_run {run rest sentence : List Token}
    (hrun : ∀ t ∈ run, t.kind ≠ .lineBreak → t.isBreak = false ∧ t.isStray = false)
    (hfirst : ∀ t, (sentence ++ run.filter (·.kind ≠ .lineBreak)).head? = some t →
      t.kind ≠ .serves) :
    statements (run ++ rest) sentence =
      statements rest (sentence ++ run.filter (·.kind ≠ .lineBreak)) := by
  induction run generalizing sentence with
  | nil => rw [List.nil_append, List.filter_nil, List.append_nil]
  | cons t run ih =>
    rw [List.forall_mem_cons] at hrun
    by_cases hk : t.kind = .lineBreak
    · have hfilter : (t :: run).filter (·.kind ≠ .lineBreak) = run.filter (·.kind ≠ .lineBreak) :=
        List.filter_cons_of_neg (by simp [hk])
      rw [hfilter] at hfirst ⊢
      rw [List.cons_append, statements_of_lineBreak hk, ih hrun.2 hfirst]
    · have hfilter : (t :: run).filter (·.kind ≠ .lineBreak) =
          t :: run.filter (·.kind ≠ .lineBreak) := List.filter_cons_of_pos (by simp [hk])
      rw [hfilter, List.append_cons] at hfirst ⊢
      obtain ⟨hbreak, hstray⟩ := hrun.1 hk
      rw [List.cons_append, statements_of_word hbreak hstray, ih hrun.2 hfirst]
      rintro rfl
      exact hfirst t rfl

/-- A statement is refused at its first token. -/
theorem statements_of_refuses {first stop : Token} {others rest : List Token}
    {cause : ParseError.Cause} (hstop : stop.kind = .period)
    (h : Phrase.Refuses (first :: others) cause) :
    statements (stop :: rest) (first :: others) = .error (first.error cause) := by
  rw [statements.eq_def]
  rcases Phrase.refuses_iff.1 h with ⟨hread, rfl⟩ | hread <;> simp only [hstop, hread] <;> rfl

/-- A title begins with a word. -/
theorem exists_cons_of_title {r : Text × Location} (h : title s = .ok (r, s')) :
    ∃ t ts, s.ahead = t :: ts ∧ t.isLineEnd = false := by
  obtain ⟨_, _, ⟨⟩, h⟩ := bind_eq_ok_iff.1 h
  obtain ⟨tokens, s₁, h₁, h⟩ := bind_eq_ok_iff.1 h
  cases h₁
  cases hahead : s.ahead with
  | nil =>
    rw [hahead] at h
    obtain ⟨_, _, _, h⟩ := bind_eq_ok_iff.1 h
    cases h
  | cons t ts =>
    refine ⟨t, ts, rfl, ?_⟩
    cases hbreak : t.isBreak with
    | false => exact isLineEnd_of_not_isBreak hbreak
    | true =>
      rw [hahead, List.takeWhile_cons_of_neg (by simp [hbreak])] at h
      obtain ⟨_, _, _, h⟩ := bind_eq_ok_iff.1 h
      cases h

theorem Reaches.exists_cons (h : Reaches s s') :
    ∃ t ts, s.ahead = t :: ts ∧ t.isLineEnd = false := by
  cases h with
  | statement hpreamble _ =>
    obtain ⟨_, _, htitle, _⟩ := bind_eq_ok_iff.1 hpreamble
    exact exists_cons_of_title htitle
  | recipe hrecipe _ _ _ =>
    obtain ⟨_, _, htitle, _⟩ := bind_eq_ok_iff.1 hrecipe
    exact exists_cons_of_title htitle

/-- Where a statement that reading comes to is refused, its recipe or one behind it
is. -/
theorem Reaches.refused (h : Reaches s s') (herror : statements s'.ahead [] = .error e) :
    recipes s = .error e := by
  induction h with
  | @statement s s' done d is hpreamble hdone =>
    have hread : instructions (s'.push done) = .error e := by
      rw [instructions, bind_def, ofTokens_def, TokenStream.ahead_push,
        statements_append_of_error hdone herror]
    have hrecipe : Grammar.recipe s = .error e := by
      rw [recipe_eq, bind_def, hpreamble]
      simp only [bind_def, hread]
    exact recipes_eq_error_iff.2 (.inl hrecipe)
  | recipe hrecipe hends hblank h ih =>
    obtain ⟨t, ts, hahead, ht⟩ := h.exists_cons
    have hmore := (moreRecipes_push hahead ht hends hblank).trans (ih herror)
    exact recipes_eq_error_iff.2 (.inr ⟨_, _, hrecipe, hmore⟩)

end Grammar

/-! ## Texts -/

/-- Whether reading a text comes to a statement with its period, made up of some
tokens and line breaks. -/
inductive Draft.ComesTo (text : Text) : List Token → Prop where
  | intro {lead run rest : List Token} {stop : Token} {s s' : TokenStream}
    (htext : TokenStream.ofText text = s.push lead) (hlead : ∀ t ∈ lead, t.isLineEnd)
    (hreaches : Grammar.Reaches s s') (hahead : s'.ahead = run ++ stop :: rest)
    (hrun : ∀ t ∈ run, t.kind ≠ .lineBreak → t.isBreak = false ∧ t.isStray = false)
    (hfirst : ∀ t, (run.filter (·.kind ≠ .lineBreak)).head? = some t → t.kind ≠ .serves)
    (hstop : stop.kind = .period) : ComesTo text (run.filter (·.kind ≠ .lineBreak))

theorem parse_of_refuses {text : Text} {first : Token} {others : List Token}
    {cause : ParseError.Cause} (h : Draft.ComesTo text (first :: others))
    (hrefuses : Phrase.Refuses (first :: others) cause) :
    Draft.parse text = .error (first.error cause) := by
  generalize hwords : first :: others = words at h
  cases h with
  | @intro lead run rest stop s s' htext hlead hreaches hahead hrun hfirst hstop =>
    have herror : Grammar.statements s'.ahead [] = .error (first.error cause) := by
      rw [hahead, Grammar.statements_run hrun hfirst, List.nil_append, ← hwords]
      exact Grammar.statements_of_refuses hstop hrefuses
    obtain ⟨t, ts, hcons, ht⟩ := hreaches.exists_cons
    rw [Draft.parse, htext, Grammar.book_push hcons ht hlead]
    exact hreaches.refused herror

/-- A text is read without a word, or refused with one line: the place of a token of
the text and the reason.  A statement that no phrase fits, or whose number is
objected to, is refused at its first token. -/
theorem refusals_reported (text : Text) :
    (Draft.proofread text).1 = Draft.parse text ∧
      ((∃ ds, Draft.proofread text = (.ok ds, [])) ∨
        ∃ e : ParseError, Draft.proofread text = (.error e, e.message ++ "\n") ∧
          e.message = e.location.text ++ " " ++ e.cause.message ∧
          ∃ t ∈ Token.scan text, e.location = t.location) ∧
      ∀ first others cause, Draft.ComesTo text (first :: others) →
        Phrase.Refuses (first :: others) cause →
        (Draft.proofread text).1 = .error (first.error cause) := by
  have hproofread := Draft.proofread_eq text
  refine ⟨by rw [hproofread], ?_, fun first others cause hcomes hrefuses => ?_⟩
  · cases hparse : Draft.parse text with
    | ok ds =>
      rw [hparse] at hproofread
      exact .inl ⟨ds, hproofread⟩
    | error e =>
      rw [hparse] at hproofread
      exact .inr ⟨e, hproofread, rfl, exists_token_of_parse hparse⟩
  · rw [hproofread]
    exact parse_of_refuses hcomes hrefuses

/-- A statement of the second recipe that no phrase fits, with a line break in it,
and one whose number disagrees with its unit. -/
theorem refusals_reported_pies :
    let unknown : Text := "Tea.\n\nMethod.\nSet aside.\n\n" ++
      ofString "Pie.\n\nMethod.\nRefrigerate. Whisk\na pie. Set aside.\n"
    let plural : Text := "Pie.\n\nMethod.\nSet aside. Refrigerate for 1 hours.\n"
    let whisk : ParseError :=
      { location := { line := 9, col := 13 }, cause := .unknownStatement "Whisk a pie" }
    let hours : ParseError := { location := { line := 4, col := 11 }, cause := .oneWithPlural }
    Draft.proofread unknown =
        (Except.error whisk, ofString "9:13 Unrecognised statement 'Whisk a pie'\n") ∧
      Draft.proofread plural =
        (Except.error hours, ofString "4:11 1 does not agree with a plural unit\n") := by
  intro unknown plural whisk hours
  have hline {text line : Text} {e e' : ParseError} (h : (Draft.proofread text).1 = .error e)
      (he : e = e') (hmessage : e'.message ++ "\n" = line) :
      Draft.proofread text = (.error e', line) := by
    subst he hmessage
    rcases (refusals_reported text).2.1 with ⟨ds, hread⟩ | ⟨e', hread, -, -⟩
    · rw [hread] at h
      cases h
    · rw [hread] at h
      cases h
      exact hread
  constructor
  · let ts := (TokenStream.ofText unknown).ahead
    let t (k : Nat) : Token := ts.getD k (TokenStream.ofText unknown).finish
    let s : TokenStream := { TokenStream.ofText unknown with ahead := ts.drop 10 }
    let s' : TokenStream := { TokenStream.ofText unknown with ahead := ts.drop 18 }
    let tea : Draft :=
      { title := "Tea", location := (t 0).location
        method := [{ action := .setAside, location := (t 6).location }] }
    let pie : Draft := { title := "Pie", location := (t 10).location }
    let refrigerate : Instruction := { action := .refrigerate, location := (t 16).location }
    have hrecipe : Grammar.recipe (.ofText unknown) = .ok (tea, s.push [t 9]) := by decide +kernel
    have hpreamble : Grammar.preamble s = .ok (pie, s'.push [t 16, t 17]) := by decide +kernel
    have hdone : Grammar.statements [t 16, t 17] [] = .ok ([refrigerate], []) := by decide +kernel
    have hreaches : Grammar.Reaches (.ofText unknown) s' :=
      .recipe hrecipe (by decide +kernel) (by decide +kernel) (.statement hpreamble hdone)
    have hahead : s'.ahead = [t 18, t 19, t 20, t 21] ++ t 22 :: ts.drop 23 := by decide +kernel
    have hwords : [t 18, t 19, t 20, t 21].filter (·.kind ≠ .lineBreak) =
        t 18 :: [t 20, t 21] := by decide +kernel
    have hcomes : Draft.ComesTo unknown (t 18 :: [t 20, t 21]) := by
      rw [← hwords]
      exact .intro TokenStream.push_nil.symm (List.forall_mem_nil _) hreaches hahead
        (by decide +kernel) (by rw [hwords]; rintro _ ⟨⟩; decide +kernel) (by decide +kernel)
    have hread : Instruction.read (t 18 :: [t 20, t 21]) = .ok none := by decide +kernel
    exact hline ((refusals_reported unknown).2.2 _ _ _ hcomes
      (Phrase.refuses_iff.2 (.inl ⟨hread, rfl⟩))) (by decide +kernel) (by decide +kernel)
  · let ts := (TokenStream.ofText plural).ahead
    let t (k : Nat) : Token := ts.getD k (TokenStream.ofText plural).finish
    let s : TokenStream := { TokenStream.ofText plural with ahead := ts.drop 9 }
    let pie : Draft := { title := "Pie", location := (t 0).location }
    let setAside : Instruction := { action := .setAside, location := (t 6).location }
    have hpreamble : Grammar.preamble (.ofText plural) = .ok (pie, s.push [t 6, t 7, t 8]) := by
      decide +kernel
    have hdone : Grammar.statements [t 6, t 7, t 8] [] = .ok ([setAside], []) := by decide +kernel
    have hahead : s.ahead = [t 9, t 10, t 11, t 12] ++ t 13 :: ts.drop 14 := by decide +kernel
    have hwords : [t 9, t 10, t 11, t 12].filter (·.kind ≠ .lineBreak) =
        t 9 :: [t 10, t 11, t 12] := by decide +kernel
    have hcomes : Draft.ComesTo plural (t 9 :: [t 10, t 11, t 12]) := by
      rw [← hwords]
      exact .intro TokenStream.push_nil.symm (List.forall_mem_nil _)
        (.statement hpreamble hdone) hahead
        (by decide +kernel) (by rw [hwords]; rintro _ ⟨⟩; decide +kernel) (by decide +kernel)
    have hread : Instruction.read (t 9 :: [t 10, t 11, t 12]) =
        .error ((t 9).error .oneWithPlural) := by decide +kernel
    exact hline ((refusals_reported plural).2.2 _ _ .oneWithPlural hcomes
      (Phrase.refuses_iff.2 (.inr hread))) (by decide +kernel) (by decide +kernel)

/-- The program shows the line in front of its own. -/
theorem CommandLine.cook_of_refused {o : Options} {book : Text} {refrigerator : Refrigerator}
    {seed : UInt32} {fuel : Nat} {e : ParseError} (h : Draft.parse book = .error e) :
    cook o book refrigerator seed fuel =
      some { status := 1, err := (Draft.proofread book).2 ++ "Failed to parse " ++ o.recipePath ++
        "\n" } := by
  have hline : ofString "\nFailed to parse " = ofString "\n" ++ ofString "Failed to parse " := by
    decide
  have htext : Program.ofText book = .error (.unreadable e) := by rw [Program.ofText, h]
  rw [cook, htext, Draft.proofread_eq, h, hline]
  simp only [Remarking.remark, List.append_assoc]

end Cookbook
