import Cookbook.Proofs.Draft.Layout
import Cookbook.Proofs.Draft.Rereading

/-!
# Cookbook.Proofs.Draft.Lines

The two lists inside a recipe are read as they are laid out: the ingredients,
one a line (`ingredientLines_eq_ok_iff`), and the statements of a method, one a
sentence (`statements_eq_ok_iff`).  Both are read token by token, with the
tokens of the line or sentence that is being read kept aside; these tokens and
those that are still to come are laid out together.
-/

namespace Cookbook

open Text Layout

/-! ## Lines of an ingredient list -/

namespace Ingredient

theorem splitQuantity_eq_iff {ts rest : List Token} {value : Option Int64} :
    splitQuantity ts = (value, rest) ↔ ∃ q, ts = q ++ rest ∧ Quantity q rest value := by
  constructor
  · intro h
    cases ts with
    | nil =>
      cases h
      exact ⟨[], rfl, .none (by simp)⟩
    | cons t ts =>
      rw [splitQuantity] at h
      split at h
      · next n hk =>
        cases h
        exact ⟨[t], rfl, .number hk⟩
      · next hk =>
        cases h
        refine ⟨[], rfl, .none fun u n hu => ?_⟩
        rw [List.head?_cons, Option.some.injEq] at hu
        exact hu ▸ hk n
  · rintro ⟨q, rfl, hq⟩
    cases hq with
    | number hk => simp only [splitQuantity, List.singleton_append, hk]
    | none hk =>
      cases rest with
      | nil => rfl
      | cons t rest =>
        rw [List.nil_append, splitQuantity]
        split
        · next n hn => exact absurd hn (hk t n rfl)
        · rfl

theorem splitMeasure_eq_ok_iff {t : Token} {rest name : List Token} {kind : Kind} :
    splitMeasure t rest = .ok (kind, name) ↔
      ∃ m, t :: rest = m ++ name ∧ Measure m name kind ∧ name ≠ [] := by
  constructor
  · intro h
    rw [splitMeasure.eq_def] at h
    split at h
    · next hh =>
      match rest, h with
      | [], h => cases h
      | [m], h => cases h
      | m :: u :: name', h =>
        simp only at h
        split at h
        · next hm =>
          obtain ⟨kind', hkind⟩ := Option.isSome_iff_exists.1 hm
          cases h
          exact ⟨[t, m], rfl, .heaped hh hkind, by simp⟩
        · cases h
    · next hh =>
      split at h
      · next kind' u name' hm =>
        cases h
        exact ⟨[t], rfl, .word hh hm, by simp⟩
      · next hother =>
        cases h
        refine ⟨[], rfl, .none hh ?_, by simp⟩
        cases hm : Kind.ofMeasure? t.lexeme with
        | none => exact .inl rfl
        | some kind' =>
          refine .inr (List.eq_nil_iff_forall_not_mem.2 fun u hu => ?_)
          obtain ⟨v, name', hcons⟩ := List.exists_cons_of_ne_nil (List.ne_nil_of_mem hu)
          exact hother kind' v name' hm hcons
  · rintro ⟨m, heq, hm, hname⟩
    rw [splitMeasure.eq_def]
    cases hm with
    | heaped hh hkind =>
      obtain ⟨u, name', rfl⟩ := List.exists_cons_of_ne_nil hname
      cases heq
      simp [show t.lexeme = _ ∨ t.lexeme = _ from hh, hkind]
    | word hh hkind =>
      obtain ⟨u, name', rfl⟩ := List.exists_cons_of_ne_nil hname
      cases heq
      simp [show ¬ (t.lexeme = _ ∨ t.lexeme = _) from hh, hkind]
    | none hh hkind =>
      cases heq
      rw [if_neg (show ¬ (t.lexeme = _ ∨ t.lexeme = _) from hh)]
      split
      · next hm =>
        rcases hkind with hkind | hkind
        · rw [hkind] at hm
          cases hm
        · cases hkind
      · rfl

/-- A line declares an ingredient if it is laid out as one. -/
theorem ofLine_eq_ok_iff {first : Token} {others : List Token} {i : Ingredient}
    (hline : ∀ t ∈ first :: others, t.isBreak = false) :
    ofLine first others = .ok i ↔ Line (first :: others) i := by
  constructor
  · intro h
    rw [ofLine] at h
    cases hfind : (first :: others).find? Token.isStray with
    | some t => simp [hfind] at h
    | none =>
      simp only [hfind] at h
      have hplain : ∀ t ∈ first :: others, t.isBreak = false ∧ t.isStray = false := fun t ht =>
        ⟨hline t ht, by simpa using List.find?_eq_none.1 hfind t ht⟩
      split at h
      · cases h
      · next value t rest hquantity =>
        obtain ⟨q, hq, hvalue⟩ := splitQuantity_eq_iff.1 hquantity
        obtain ⟨r, hmeasure, h⟩ := Refusing.bind_eq_ok_iff.1 h
        obtain ⟨m, hm, hkind, hname⟩ := splitMeasure_eq_ok_iff.1 hmeasure
        cases h
        rw [hm] at hq hvalue
        rw [hq] at hplain ⊢
        exact .intro hplain hvalue hkind hname
  · generalize hts : first :: others = ts at hline ⊢
    intro h
    cases h with
    | @intro quantity measure name value kind hplain hquantity hmeasure hname =>
      have hfind : (first :: others).find? Token.isStray = none := by
        rw [List.find?_eq_none, hts]
        exact fun t ht => by simp [(hplain t ht).2]
      obtain ⟨t, rest, hrest⟩ : ∃ t rest, measure ++ name = t :: rest :=
        List.exists_cons_of_ne_nil (by simp [hname])
      have hsplit : splitQuantity (first :: others) = (value, t :: rest) :=
        splitQuantity_eq_iff.2 ⟨quantity, by rw [hts, hrest], hrest ▸ hquantity⟩
      have hkind : splitMeasure t rest = .ok (kind, name) :=
        splitMeasure_eq_ok_iff.2 ⟨measure, hrest.symm, hmeasure, hname⟩
      simp only [ofLine, hfind, hsplit, hkind]
      rfl

end Ingredient

namespace Layout

theorem Line.ne_nil {ts : List Token} {i : Ingredient} (h : Line ts i) : ts ≠ [] := by
  cases h with
  | intro hplain hquantity hmeasure hname => simp [hname]

theorem Line.isBreak {ts : List Token} {i : Ingredient} (h : Line ts i) :
    ∀ t ∈ ts, t.isBreak = false := by
  cases h with
  | intro hplain hquantity hmeasure hname => exact fun t ht => (hplain t ht).1

end Layout

namespace Grammar

open Reading

theorem ingredientOf_eq_ok_iff {stop : Token} {ts : List Token} {i : Ingredient}
    (hts : ∀ t ∈ ts, t.isBreak = false) : ingredientOf stop ts = .ok i ↔ Line ts i := by
  cases ts with
  | nil =>
    constructor
    · intro h
      cases h
    · exact fun h => absurd rfl h.ne_nil
  | cons first others => exact Ingredient.ofLine_eq_ok_iff hts

/-- Whether an ingredient list may end before some tokens: at the end of the
book or at a break that is not a single line break. -/
def EndsLines (rest : List Token) : Prop :=
  ∀ t, rest.head? = some t → t.isBreak ∧ t.kind ≠ .lineBreak

theorem lines_of_ingredientLines {finish : Token} {tokens line rest : List Token}
    {is : List Ingredient} (h : ingredientLines finish tokens line = .ok (is, rest))
    (hline : ∀ t ∈ line, t.isBreak = false) :
    EndsLines rest ∧ ∃ ts, tokens = ts ++ rest ∧ Lines (line ++ ts) is := by
  induction tokens generalizing line is with
  | nil =>
    obtain ⟨i, hi, h⟩ := Refusing.bind_eq_ok_iff.1 h
    cases h
    rw [ingredientOf_eq_ok_iff hline] at hi
    exact ⟨by simp [EndsLines], [], rfl, by simpa using .last hi⟩
  | cons t tokens ih =>
    rw [ingredientLines] at h
    split at h
    · next hbreak =>
      obtain ⟨i, hi, h⟩ := Refusing.bind_eq_ok_iff.1 h
      rw [ingredientOf_eq_ok_iff hline] at hi
      split at h
      · next hk =>
        obtain ⟨more, hmore, h⟩ := Refusing.bind_eq_ok_iff.1 h
        cases h
        obtain ⟨hend, ts, rfl, hlines⟩ := ih hmore (by simp)
        exact ⟨hend, t :: ts, rfl, .cons hi hk hlines⟩
      · next hk =>
        cases h
        refine ⟨?_, [], rfl, by simpa using .last hi⟩
        intro u hu
        rw [List.head?_cons, Option.some.injEq] at hu
        exact hu ▸ ⟨hbreak, hk⟩
    · next hbreak =>
      have hline' : ∀ u ∈ line ++ [t], u.isBreak = false :=
        List.forall_mem_append.2 ⟨hline, List.forall_mem_singleton.2 (by simpa using hbreak)⟩
      obtain ⟨hend, ts, rfl, hlines⟩ := ih h hline'
      exact ⟨hend, t :: ts, rfl, by simpa using hlines⟩

theorem ingredientLines_words {finish : Token} {us rest line : List Token}
    (hus : ∀ t ∈ us, t.isBreak = false) :
    ingredientLines finish (us ++ rest) line = ingredientLines finish rest (line ++ us) := by
  induction us generalizing line with
  | nil => rw [List.nil_append, List.append_nil]
  | cons t us ih =>
    rw [List.forall_mem_cons] at hus
    rw [List.cons_append, ingredientLines, if_neg (by simp [hus.1]), ih hus.2, List.append_assoc,
      List.singleton_append]

theorem ingredientLines_of_lines {finish : Token} {ts rest : List Token} {is : List Ingredient}
    (h : Lines ts is) (hend : EndsLines rest) :
    ingredientLines finish (ts ++ rest) [] = .ok (is, rest) := by
  induction h with
  | @last ts i hi =>
    have hread (stop : Token) : ingredientOf stop ts = .ok i :=
      (ingredientOf_eq_ok_iff hi.isBreak).2 hi
    rw [ingredientLines_words hi.isBreak, List.nil_append]
    cases rest with
    | nil =>
      simp only [ingredientLines, hread]
      rfl
    | cons t rest =>
      obtain ⟨hbreak, hk⟩ := hend t rfl
      simp only [ingredientLines, if_pos hbreak, hread, if_neg hk]
      rfl
  | @cons ts more br i is hi hbr _ ih =>
    have hread : ingredientOf br ts = .ok i := (ingredientOf_eq_ok_iff hi.isBreak).2 hi
    have hbreak : br.isBreak := by simp [Token.isBreak, hbr]
    rw [List.append_assoc, ingredientLines_words hi.isBreak, List.nil_append, List.cons_append]
    simp only [ingredientLines, if_pos hbreak, hread, if_pos hbr, ih]
    rfl

/-- Ingredients are read as the lines they are laid out in, up to the first
break that is not a single line break. -/
theorem ingredientLines_eq_ok_iff {finish : Token} {tokens rest : List Token}
    {is : List Ingredient} : ingredientLines finish tokens [] = .ok (is, rest) ↔
      EndsLines rest ∧ ∃ ts, tokens = ts ++ rest ∧ Lines ts is := by
  constructor
  · intro h
    exact lines_of_ingredientLines h (by simp)
  · rintro ⟨hend, ts, rfl, hlines⟩
    exact ingredientLines_of_lines hlines hend

end Grammar

/-! ## Sentences of a method -/

namespace Layout

theorem Statement.ne_nil {run : List Token} {i : Instruction} (h : Statement run i) : run ≠ [] := by
  rintro rfl
  have hread := h.read
  simp [Instruction.read] at hread

/-- What the first token behind some tokens of a sentence may be: the period,
and then the sentence is a statement, or a token that belongs to it. -/
theorem Sentences.cons_cases {sentence us : List Token} {t : Token} {is : List Instruction}
    (h : Sentences (sentence ++ t :: us) is) (hsentence : ∀ u ∈ sentence, u.kind ≠ .period) :
    (t.kind = .period ∧ ∃ i is', is = i :: is' ∧ Statement sentence i ∧ Sentences us is') ∨
      (t.kind ≠ .period ∧ t.kind ≠ .unexpected ∧ (sentence = [] → t.kind ≠ .serves)) := by
  generalize hts : sentence ++ t :: us = ts at h
  cases h with
  | nil => simp at hts
  | @cons run rest stop i is hi hstop hrest =>
    have hrun : ∀ u ∈ run, ¬ u.kind = .period := fun u hu => (hi.expected u hu).1
    by_cases hk : t.kind = .period
    · obtain ⟨rfl, rfl, rfl⟩ := append_cons_inj_of_first hts hk hstop hsentence hrun
      exact .inl ⟨hk, i, is, rfl, hi, hrest⟩
    · -- the sentence does not reach the period of its statement, so `t` lies before it
      have hmem : ∃ front, run = sentence ++ t :: front := by
        rcases List.append_eq_append_iff.1 hts with ⟨as, hrun', hcons⟩ | ⟨cs, hsen, hcons⟩
        · cases as with
          | nil =>
            rw [List.nil_append, List.cons.injEq] at hcons
            exact absurd (hcons.1 ▸ hstop) hk
          | cons u as =>
            rw [List.cons_append, List.cons.injEq] at hcons
            exact ⟨as, by rw [hrun', hcons.1]⟩
        · cases cs with
          | nil =>
            rw [List.nil_append, List.cons.injEq] at hcons
            exact absurd (hcons.1 ▸ hstop) hk
          | cons u cs =>
            rw [List.cons_append, List.cons.injEq] at hcons
            exact absurd hstop (hsentence stop (by simp [hsen, hcons.1]))
      obtain ⟨front, rfl⟩ := hmem
      refine .inr ⟨hk, (hi.expected t (by simp)).2, ?_⟩
      rintro rfl
      exact hi.first t rfl

theorem Sentences.eq_nil {sentence : List Token} {is : List Instruction}
    (h : Sentences sentence is) (hsentence : ∀ u ∈ sentence, u.kind ≠ .period) :
    sentence = [] ∧ is = [] := by
  cases h with
  | nil => exact ⟨rfl, rfl⟩
  | @cons run rest stop i is hi hstop hrest => exact absurd hstop (hsentence stop (by simp))

end Layout

namespace Grammar

open Reading

/-- Tokens that may stand in a sentence that is not yet ended. -/
structure Unended (sentence : List Token) : Prop where
  expected : ∀ t ∈ sentence, t.kind ≠ .period ∧ t.kind ≠ .unexpected
  first : ∀ t, sentence.head? = some t → t.kind ≠ .serves

theorem Unended.concat {sentence : List Token} {t : Token} (h : Unended sentence)
    (hk : t.kind ≠ .period ∧ t.kind ≠ .unexpected) (hfirst : sentence = [] → t.kind ≠ .serves) :
    Unended (sentence ++ [t]) where
  expected := List.forall_mem_append.2 ⟨h.expected, List.forall_mem_singleton.2 hk⟩
  first := by
    intro u hu
    cases sentence with
    | nil =>
      have htu : t = u := by simpa using hu
      exact htu ▸ hfirst rfl
    | cons v sentence => exact h.first u (by simpa using hu)

theorem statements_of_endsMethod {rest : List Token} (h : EndsMethod rest) :
    statements rest [] = .ok ([], rest) := by
  rcases h with rfl | ⟨t, rest', rfl, hk⟩
  · rfl
  · exact statements_of_end hk

/-- What is read of a method is laid out as sentences of a single paragraph. -/
theorem sentences_of_statements {tokens sentence rest : List Token} {is : List Instruction}
    (h : statements tokens sentence = .ok (is, rest)) (hs : ∀ t ∈ tokens, t.kind ≠ .finish)
    (hsentence : Unended sentence) :
    EndsMethod rest ∧ ∃ ts, tokens = ts ++ rest ∧ (∀ t ∈ ts, t.kind ≠ .blankLine) ∧
      Sentences (sentence ++ ts.filter (·.kind ≠ .lineBreak)) is := by
  induction tokens generalizing sentence is with
  | nil =>
    rw [statements.eq_def] at h
    simp only at h
    split at h
    · cases h
    · next hlast =>
      cases h
      obtain rfl := List.getLast?_eq_none_iff.1 hlast
      exact ⟨.inl rfl, [], rfl, by simp, .nil⟩
  | cons t tokens ih =>
    rw [List.forall_mem_cons] at hs
    -- a token that is no line break goes to the sentence
    have hadd (hk : t.kind ≠ .lineBreak) (hblank : t.kind ≠ .blankLine)
        (hplain : t.kind ≠ .period ∧ t.kind ≠ .unexpected)
        (hfirst : sentence = [] → t.kind ≠ .serves)
        (h : statements tokens (sentence ++ [t]) = .ok (is, rest)) :
        EndsMethod rest ∧ ∃ ts, t :: tokens = ts ++ rest ∧ (∀ t ∈ ts, t.kind ≠ .blankLine) ∧
          Sentences (sentence ++ ts.filter (·.kind ≠ .lineBreak)) is := by
      obtain ⟨hend, ts, rfl, hts, hread⟩ := ih h hs.2 (hsentence.concat hplain hfirst)
      refine ⟨hend, t :: ts, rfl, List.forall_mem_cons.2 ⟨hblank, hts⟩, ?_⟩
      simpa [hk] using hread
    rw [statements.eq_def] at h
    cases hk : t.kind with
    | finish => exact absurd hk hs.1
    | unexpected => simp [hk] at h
    | lineBreak =>
      simp only [hk] at h
      obtain ⟨hend, ts, rfl, hts, hread⟩ := ih h hs.2 hsentence
      refine ⟨hend, t :: ts, rfl, List.forall_mem_cons.2 ⟨by simp [hk], hts⟩, ?_⟩
      simpa [hk] using hread
    | blankLine =>
      simp only [hk] at h
      split at h
      · cases h
      · next hlast =>
        cases h
        obtain rfl := List.getLast?_eq_none_iff.1 hlast
        exact ⟨.inr ⟨t, tokens, rfl, .inl hk⟩, [], rfl, by simp, .nil⟩
    | serves =>
      simp only [hk] at h
      cases sentence with
      | nil =>
        simp only [List.isEmpty_nil, if_true] at h
        cases h
        exact ⟨.inr ⟨t, tokens, rfl, .inr hk⟩, [], rfl, by simp, .nil⟩
      | cons u sentence => exact hadd (by simp [hk]) (by simp [hk]) (by simp [hk]) (by simp) h
    | period =>
      simp only [hk] at h
      cases sentence with
      | nil => cases h
      | cons u sentence =>
        obtain ⟨found, hread, h⟩ := Refusing.bind_eq_ok_iff.1 h
        cases found with
        | none => cases h
        | some i =>
          obtain ⟨more, hmore, h⟩ := Refusing.bind_eq_ok_iff.1 h
          cases h
          obtain ⟨hend, ts, rfl, hts, hsentences⟩ := ih hmore hs.2 ⟨by simp, by simp⟩
          refine ⟨hend, t :: ts, rfl, List.forall_mem_cons.2 ⟨by simp [hk], hts⟩, ?_⟩
          have hstatement : Statement (u :: sentence) i :=
            ⟨hread, hsentence.expected, hsentence.first⟩
          simpa [hk] using Sentences.cons hstatement hk hsentences
    | word | number | ingredients | method =>
      simp only [hk] at h
      exact hadd (by simp [hk]) (by simp [hk]) (by simp [hk]) (by simp [hk]) h

/-- Sentences of a single paragraph are read one by one. -/
theorem statements_of_sentences {ts rest sentence : List Token} {is : List Instruction}
    (h : Sentences (sentence ++ ts.filter (·.kind ≠ .lineBreak)) is) (hend : EndsMethod rest)
    (hts : ∀ t ∈ ts, t.kind ≠ .blankLine ∧ t.kind ≠ .finish)
    (hsentence : ∀ t ∈ sentence, t.kind ≠ .period) :
    statements (ts ++ rest) sentence = .ok (is, rest) := by
  induction ts generalizing sentence is with
  | nil =>
    rw [List.filter_nil, List.append_nil] at h
    obtain ⟨rfl, rfl⟩ := h.eq_nil hsentence
    exact statements_of_endsMethod hend
  | cons t ts ih =>
    rw [List.forall_mem_cons] at hts
    by_cases hk : t.kind = .lineBreak
    · rw [List.cons_append, statements_of_lineBreak hk]
      exact ih (by simpa [hk] using h) hts.2 hsentence
    · rw [List.filter_cons_of_pos (by simpa using hk)] at h
      rcases h.cons_cases hsentence with
        ⟨hstop, i, is', rfl, hi, hrest⟩ | ⟨hstop, hexpected, hfirst⟩
      · have hread : statements (ts ++ rest) [] = .ok (is', rest) := ih hrest hts.2 (by simp)
        exact statements_of_period hstop hi.read hread hi.ne_nil
      · have hbreak : t.isBreak = false := by
          unfold Token.isBreak
          grind
        have hstray : t.isStray = false := by
          unfold Token.isStray
          grind
        rw [List.cons_append, statements_of_word hbreak hstray hfirst]
        refine ih (by simpa using h) hts.2 ?_
        exact List.forall_mem_append.2 ⟨hsentence, List.forall_mem_singleton.2 hstop⟩

/-- The statements of a method are read as the sentences they are laid out in,
up to the blank line, the `Serves` or the end of the book behind them. -/
theorem statements_eq_ok_iff {tokens rest : List Token} {is : List Instruction}
    (hs : ∀ t ∈ tokens, t.kind ≠ .finish) : statements tokens [] = .ok (is, rest) ↔
      EndsMethod rest ∧ ∃ ts, tokens = ts ++ rest ∧ (∀ t ∈ ts, t.kind ≠ .blankLine) ∧
        Sentences (ts.filter (·.kind ≠ .lineBreak)) is := by
  constructor
  · intro h
    exact sentences_of_statements h hs ⟨by simp, by simp⟩
  · rintro ⟨hend, ts, rfl, hts, hread⟩
    rw [List.forall_mem_append] at hs
    exact statements_of_sentences hread hend (fun t ht => ⟨hts t ht, hs.1 t ht⟩) (by simp)

end Grammar

end Cookbook
