import Cookbook.Proofs.Draft.Lines

/-!
# Cookbook.Proofs.Draft.Declarations

What a line of an ingredient list declares.  A quantity, a measure and a name may
look alike: a measure may be a name, a name may begin with a number.  Which is which
depends on how many tokens follow, and `ingredient_line_reads_back` says how.

Lines can be read by counting their tokens, with a test before each that is looked
at (`Ingredient.ofCounted`).  That comes to the same, and no token is looked at that
is not there (`ofCounted_cons`).
-/

namespace Cookbook

open Layout

/-! ## Names -/

namespace Token

theorem length_foldl_join_le {joined joined' : Text} {extra : Nat} (ts : List Token)
    (hne : joined' ≠ []) (h : joined.length + extra ≤ joined'.length) :
    (ts.foldl (fun joined t => (if joined.isEmpty then [] else joined ++ [Text.space]) ++ t.lexeme)
        joined).length + extra ≤
      (ts.foldl (fun joined t => (if joined.isEmpty then [] else joined ++ [Text.space]) ++ t.lexeme)
        joined').length := by
  induction ts generalizing joined joined' with
  | nil => exact h
  | cons t ts ih =>
    have hempty : joined'.isEmpty = false := by simpa using hne
    rw [List.foldl_cons, List.foldl_cons]
    refine ih ?_ ?_
    · simp [hempty]
    · rw [hempty]
      split <;> simp <;> omega

/-- A name gets longer by the words in front of it. -/
theorem length_join_lt (t : Token) (ts : List Token) (h : t.lexeme ≠ []) :
    (join ts).length < (join (t :: ts)).length := by
  have hlonger : (join ts).length + t.lexeme.length ≤ (join (t :: ts)).length := by
    rw [join_eq_foldl, join_eq_foldl]
    exact length_foldl_join_le ts h (by simp)
  have := List.length_pos_iff.2 h
  omega

end Token

/-! ## Lines -/

namespace Layout

/-- A number, or nothing. -/
inductive Numbered : List Token → Option Int64 → Prop where
  | none : Numbered [] none
  | number {t : Token} {n : Int64} (h : t.kind = .number n) : Numbered [t] (some n)

/-- Whether a token may stand in a line. -/
def Plain (t : Token) : Prop := t.isBreak = false ∧ t.isStray = false

theorem plain_of_word {t : Token} (h : t.kind = .word) : Plain t := by
  simp [Plain, Token.isBreak, Token.isStray, h]

theorem Numbered.plain {q : List Token} {v : Option Int64} (h : Numbered q v) :
    ∀ t ∈ q, Plain t := by
  cases h with
  | none => simp
  | number hk => simp [Plain, Token.isBreak, Token.isStray, hk]

/-- A number in front of some tokens is their quantity, unless there is none and they
begin with a number themselves. -/
theorem Numbered.quantity {q rest : List Token} {v : Option Int64} (h : Numbered q v)
    (hrest : v = Option.none → ∀ t n, rest.head? = some t → t.kind ≠ .number n) :
    Quantity q rest v := by
  cases h with
  | none => exact .none (hrest rfl)
  | number hk => exact .number hk

theorem Numbered.eq_of_quantity {q q' rest rest' : List Token} {v : Option Int64}
    (h : Numbered q v) (h' : Quantity q' rest' v) (heq : q ++ rest = q' ++ rest') :
    rest = rest' := by
  cases h with
  | none =>
    cases h' with
    | none _ => exact heq
  | number _ =>
    cases h' with
    | number _ => exact (List.cons.inj heq).2

theorem not_heaps_of_measure {m : Token} {kind : Ingredient.Kind}
    (h : Ingredient.Kind.ofMeasure? m.lexeme = some kind) : ¬ Heaps m := by
  rintro (hm | hm) <;> rw [hm] at h <;> cases h

theorem ne_nil_of_measure {m : Token} {kind : Ingredient.Kind}
    (h : Ingredient.Kind.ofMeasure? m.lexeme = some kind) : m.lexeme ≠ [] := by
  intro hm
  rw [hm] at h
  cases h

variable {q measure name : List Token} {v : Option Int64} {kind : Ingredient.Kind}

theorem Numbered.line (hq : Numbered q v) (hmeasure : Measure measure name kind)
    (hfirst : v = Option.none → ∀ t n, (measure ++ name).head? = some t → t.kind ≠ .number n)
    (hplain : ∀ t ∈ measure ++ name, Plain t) (hname : name ≠ []) :
    Line (q ++ (measure ++ name)) { name := Token.join name, value := v, kind } :=
  .intro (List.forall_mem_append.2 ⟨hq.plain, hplain⟩) (hq.quantity hfirst) hmeasure hname

/-- Without a measure, the name is all that follows the number, just when it begins
neither with a number nor with what would be taken for a measure. -/
theorem line_name_iff {t : Token} {rest : List Token} (hq : Numbered q v)
    (hplain : ∀ u ∈ t :: rest, Plain u) :
    Line (q ++ t :: rest) { name := Token.join (t :: rest), value := v, kind := .either } ↔
      ¬ Heaps t ∧ (Ingredient.Kind.ofMeasure? t.lexeme = none ∨ rest = []) ∧
        (v = none → ∀ n, t.kind ≠ .number n) := by
  constructor
  · intro h
    generalize hline : q ++ t :: rest = line at h
    generalize hjoin : Token.join (t :: rest) = joined at h
    cases h with
    | @intro quantity measure name _ _ hplain' hquantity hmeasure hname =>
      have hrest := hq.eq_of_quantity hquantity hline
      cases hmeasure with
      | word hh hm =>
        -- a measure in front would be missing from the name
        obtain ⟨rfl, rfl⟩ := List.cons.inj hrest
        have hlonger := Token.length_join_lt t rest (ne_nil_of_measure hm)
        rw [hjoin] at hlonger
        exact absurd hlonger (Nat.lt_irrefl _)
      | none hh hm =>
        obtain ⟨rfl, rfl⟩ := List.cons.inj hrest
        refine ⟨hh, hm, ?_⟩
        rintro rfl n
        cases hquantity with
        | none hnumber => exact hnumber t n rfl
  · rintro ⟨hheaps, hmeasure, hnumber⟩
    refine hq.line (.none hheaps hmeasure) (fun hv u n hu => ?_) hplain (by simp)
    exact Option.some.inj hu ▸ hnumber hv n

end Layout

namespace Ingredient

/-- Whether some tokens are a measure with a name behind it, as they have to be behind
`heaped` or `level`. -/
def Measured (ts : List Token) : Prop :=
  ∃ m t name, ts = m :: t :: name ∧ (Kind.ofMeasure? m.lexeme).isSome

theorem splitMeasure_eq_error_iff {t : Token} {rest : List Token} :
    (∃ e, splitMeasure t rest = .error e) ↔ Heaps t ∧ ¬ Measured rest := by
  unfold splitMeasure
  by_cases hh : Heaps t
  · rw [if_pos (show t.lexeme = _ ∨ t.lexeme = _ from hh)]
    cases rest with
    | nil => simp [hh, Measured]
    | cons m rest =>
      cases rest with
      | nil => simp [hh, Measured]
      | cons u name =>
        by_cases hm : (Kind.ofMeasure? m.lexeme).isSome <;> simp [hh, hm, Measured]
  · rw [if_neg (show ¬ (t.lexeme = _ ∨ t.lexeme = _) from hh)]
    split <;> simp [hh]

/-- A line is refused if it holds what cannot be part of one, if nothing follows its
quantity, or if no measure and name follow `heaped` or `level`. -/
theorem ingredientOf_eq_error_iff {stop : Token} {q rest : List Token} {v : Option Int64}
    (hq : Quantity q rest v) :
    (∃ e, Grammar.ingredientOf stop (q ++ rest) = .error e) ↔
      (∃ t ∈ q ++ rest, t.isStray) ∨ rest = [] ∨
        ∃ t others, rest = t :: others ∧ Heaps t ∧ ¬ Measured others := by
  have hsplit := splitQuantity_eq_iff.2 ⟨q, rfl, hq⟩
  generalize hline : q ++ rest = line at hsplit
  cases line with
  | nil =>
    obtain ⟨rfl, rfl⟩ := List.append_eq_nil_iff.1 hline
    simp [Grammar.ingredientOf]
  | cons first others =>
    rw [Grammar.ingredientOf, ofLine, hsplit]
    cases hfind : (first :: others).find? Token.isStray with
    | some t =>
      have hstray : ∃ t ∈ first :: others, t.isStray :=
        ⟨t, List.mem_of_find?_eq_some hfind, List.find?_some hfind⟩
      exact iff_of_true ⟨_, rfl⟩ (.inl hstray)
    | none =>
      have hplain : ¬ ∃ t ∈ first :: others, t.isStray := by
        rintro ⟨t, ht, hstray⟩
        exact List.find?_eq_none.1 hfind t ht hstray
      cases rest with
      | nil => exact iff_of_true ⟨_, rfl⟩ (.inr (.inl rfl))
      | cons t rest =>
        cases hm : splitMeasure t rest with
        | error e =>
          have hheaped := splitMeasure_eq_error_iff.1 ⟨e, hm⟩
          exact iff_of_true ⟨e, by simp [hm]⟩ (.inr (.inr ⟨t, rest, rfl, hheaped⟩))
        | ok r =>
          refine iff_of_false (by simp [hm]) ?_
          rintro (hstray | hnil | ⟨t', others', heq, hheaped⟩)
          · exact hplain hstray
          · cases hnil
          · cases heq
            obtain ⟨e, he⟩ := splitMeasure_eq_error_iff.2 hheaped
            cases hm.symm.trans he

/-! ## Counting tokens -/

/-- Why a line cannot be read by counting its tokens. -/
inductive Slip where
  | refused (e : ParseError)
  /-- A token is looked at that is not there. -/
  | outside (index : Nat)

/-- The token with an index. -/
def tokenAt (tokens : List Token) (i : Nat) : Except Slip Token :=
  match tokens[i]? with
  | some t => .ok t
  | none => .error (.outside i)

/-- The tokens from an index on. -/
def tokensFrom (tokens : List Token) (i : Nat) : Except Slip (List Token) :=
  if i ≤ tokens.length then .ok (tokens.drop i) else .error (.outside i)

/-- The number at the start of a line, and the index of the token behind it. -/
def countQuantity (line : List Token) : Except Slip (Option Int64 × Nat) := do
  let t ← tokenAt line 0
  match t.kind with
  | .number n => return (some n, 1)
  | _ => return (none, 0)

/-- The kind that the measure with an index tells, and the index of the name. -/
def countMeasure (line : List Token) (i : Nat) : Except Slip (Kind × Nat) := do
  if i < line.length then
    let t ← tokenAt line i
    if t.lexeme = "heaped" ∨ t.lexeme = "level" then
      if i + 2 < line.length then
        let m ← tokenAt line (i + 1)
        if (Kind.ofMeasure? m.lexeme).isSome then return (.dry, i + 2)
        else throw (.refused (m.error (.unknownMeasure m.lexeme)))
      else
        let m ← tokenAt line (if i + 1 < line.length then i + 1 else line.length - 1)
        throw (.refused (m.error (.unknownMeasure m.lexeme)))
    else if i + 1 < line.length then
      match Kind.ofMeasure? t.lexeme with
      | some kind => return (kind, i + 1)
      | none => return (.either, i)
    else return (.either, i)
  else return (.either, i)

/-- The ingredient that a line declares, read by counting its tokens: each token is
looked at by its index, and only the tests in front say that it is there. -/
def ofCounted (line : List Token) : Except Slip Ingredient :=
  match line.find? Token.isStray with
  | some t => .error (.refused (t.error (.strayInIngredient t.kind)))
  | none => do
    let (value, i) ← countQuantity line
    let (kind, i) ← countMeasure line i
    if i < line.length then
      let name ← tokensFrom line i
      return { name := Token.join name, value, kind }
    else
      let last ← tokenAt line (line.length - 1)
      throw (.refused (last.error .noIngredientName))

theorem tokenAt_append (q : List Token) (t : Token) (rest : List Token) :
    tokenAt (q ++ t :: rest) q.length = .ok t := by
  simp [tokenAt]

theorem tokenAt_append_succ (q : List Token) (t m : Token) (rest : List Token) :
    tokenAt (q ++ t :: m :: rest) (q.length + 1) = .ok m := by
  simp [tokenAt]

theorem countQuantity_eq {q rest : List Token} {v : Option Int64} (hq : Quantity q rest v)
    (hne : q ++ rest ≠ []) : countQuantity (q ++ rest) = .ok (v, q.length) := by
  cases hq with
  | number hk => simp [countQuantity, tokenAt, bind, Except.bind, hk, pure, Except.pure]
  | none hk =>
    cases rest with
    | nil => exact absurd rfl hne
    | cons t rest =>
      simp only [countQuantity, tokenAt, bind, Except.bind, pure, Except.pure, List.nil_append,
        List.getElem?_cons_zero, List.length_nil]
      split
      · next n hn => exact absurd hn (hk t n rfl)
      · rfl

/-- With the quantity off, counting goes on as far as the measure does. -/
theorem countMeasure_append (q : List Token) (t : Token) (rest : List Token) :
    countMeasure (q ++ t :: rest) q.length =
      ((splitMeasure t rest).mapError Slip.refused).map fun found : Kind × List Token =>
        (found.1, (q ++ t :: rest).length - found.2.length) := by
  have hlt : q.length < (q ++ t :: rest).length := by simp
  unfold countMeasure splitMeasure
  rw [if_pos hlt, tokenAt_append]
  simp only [bind, Except.bind, pure, Except.pure, throw, throwThe, MonadExceptOf.throw]
  by_cases hh : t.lexeme = "heaped" ∨ t.lexeme = "level"
  · rw [if_pos hh, if_pos hh]
    cases rest with
    | nil => simp [tokenAt, Except.map, Except.mapError]
    | cons m rest =>
      cases rest with
      | nil => simp [tokenAt_append_succ, Except.map, Except.mapError]
      | cons u name =>
        rw [tokenAt_append_succ]
        by_cases hm : (Kind.ofMeasure? m.lexeme).isSome
        · simp [hm, Except.map, Except.mapError]
          omega
        · simp [hm, Except.map, Except.mapError]
  · rw [if_neg hh, if_neg hh]
    cases rest with
    | nil => cases Kind.ofMeasure? t.lexeme <;> simp [Except.map, Except.mapError]
    | cons m rest =>
      cases Kind.ofMeasure? t.lexeme <;> simp [Except.map, Except.mapError]
      omega

theorem tokensFrom_append (front name : List Token) :
    tokensFrom (front ++ name) ((front ++ name).length - name.length) = .ok name := by
  simp [tokensFrom]

/-- Counting the tokens of a line comes to the same as taking it apart, so a token
that is not there is never looked at. -/
theorem ofCounted_cons (first : Token) (others : List Token) :
    ofCounted (first :: others) = (ofLine first others).mapError Slip.refused := by
  obtain ⟨v, rest, hsplit⟩ : ∃ v rest, splitQuantity (first :: others) = (v, rest) := ⟨_, _, rfl⟩
  obtain ⟨q, hline, hq⟩ := splitQuantity_eq_iff.1 hsplit
  have hquantity : countQuantity (first :: others) = .ok (v, q.length) := by
    rw [hline]
    exact countQuantity_eq hq (by simp [← hline])
  rw [ofCounted, ofLine, hsplit]
  cases (first :: others).find? Token.isStray with
  | some t => rfl
  | none =>
    simp only [hquantity, bind, Except.bind, pure, Except.pure, throw, throwThe,
      MonadExceptOf.throw]
    cases rest with
    | nil =>
      cases hq with
      | none _ => cases hline
      | number _ =>
        cases hline
        rfl
    | cons t rest =>
      rw [hline, countMeasure_append]
      dsimp only
      cases hm : splitMeasure t rest with
      | error e => rfl
      | ok found =>
        obtain ⟨measure, hrest, -, hname⟩ := splitMeasure_eq_ok_iff.1 hm
        have hpos := List.length_pos_iff.2 hname
        have hsplice : q ++ t :: rest = (q ++ measure) ++ found.2 := by
          rw [hrest, List.append_assoc]
        simp only [Except.map, Except.mapError]
        rw [if_pos (by rw [hsplice, List.length_append]; omega), hsplice, tokensFrom_append]

end Ingredient

/-! ## What lines declare -/

section

open Ingredient Grammar

/-- What a line declares, for any name of tokens that may stand in a line, with or
without a number in front.

With a measure between them, the ingredient is of the kind that the measure tells,
and dry if the measure is heaped or level.  Without one, all that follows the number
is the name, and nothing tells the kind, if and only if the first word of the name is
not `heaped` or `level`, not a measure with more behind it, and not a number that
would be the quantity.  A line is refused if and only if it holds a period or
something unexpected, nothing follows its quantity, or `heaped` or `level` is not
followed by a measure and a name.  Whatever the line, no token is looked at that is
not there. -/
theorem ingredient_line_reads_back (stop : Token) :
    (∀ q v name, Numbered q v → name ≠ [] → (∀ t ∈ name, Plain t) →
      (∀ m kind, m.kind = .word → Kind.ofMeasure? m.lexeme = some kind →
        ingredientOf stop (q ++ m :: name) =
            .ok { name := Token.join name, value := v, kind } ∧
          ∀ h, h.kind = .word → Heaps h → ingredientOf stop (q ++ h :: m :: name) =
            .ok { name := Token.join name, value := v, kind := .dry }) ∧
      ∀ t rest, name = t :: rest →
        (ingredientOf stop (q ++ name) =
            .ok { name := Token.join name, value := v, kind := .either } ↔
          ¬ Heaps t ∧ (Kind.ofMeasure? t.lexeme = none ∨ rest = []) ∧
            (v = none → ∀ n, t.kind ≠ .number n))) ∧
    (∀ line, ∃ q rest v, line = q ++ rest ∧ Quantity q rest v ∧
      ((∃ e, ingredientOf stop line = .error e) ↔
        (∃ t ∈ line, t.isStray) ∨ rest = [] ∨
          ∃ t others, rest = t :: others ∧ Heaps t ∧ ¬ Measured others)) ∧
    ∀ line, line ≠ [] →
      ofCounted line = (ingredientOf stop line).mapError .refused ∧
        ∀ i, ofCounted line ≠ .error (.outside i) := by
  have hreads {q rest : List Token} {v : Option Int64} {i : Ingredient} (hq : Numbered q v)
      (hrest : ∀ t ∈ rest, Plain t) : ingredientOf stop (q ++ rest) = .ok i ↔ Line (q ++ rest) i :=
    ingredientOf_eq_ok_iff fun t ht => (List.forall_mem_append.2 ⟨hq.plain, hrest⟩ t ht).1
  refine ⟨fun q v name hq hname hplain => ⟨fun m kind hword hm => ?_, ?_⟩, ?_, ?_⟩
  · have hplain' : ∀ t ∈ m :: name, Plain t := List.forall_mem_cons.2 ⟨plain_of_word hword, hplain⟩
    refine ⟨(hreads hq hplain').2 ?_, fun h hword' hh => (hreads hq ?_).2 ?_⟩
    · exact hq.line (.word (not_heaps_of_measure hm) hm)
        (fun _ t n ht => by cases ht; simp [hword]) hplain' hname
    · exact List.forall_mem_cons.2 ⟨plain_of_word hword', hplain'⟩
    · exact hq.line (.heaped hh hm) (fun _ t n ht => by cases ht; simp [hword'])
        (List.forall_mem_cons.2 ⟨plain_of_word hword', hplain'⟩) hname
  · rintro t rest rfl
    rw [hreads hq hplain, line_name_iff hq hplain]
  · intro line
    obtain ⟨v, rest, hsplit⟩ : ∃ v rest, splitQuantity line = (v, rest) := ⟨_, _, rfl⟩
    obtain ⟨q, rfl, hq⟩ := splitQuantity_eq_iff.1 hsplit
    exact ⟨q, rest, v, rfl, hq, ingredientOf_eq_error_iff hq⟩
  · intro line hne
    obtain ⟨first, others, rfl⟩ := List.exists_cons_of_ne_nil hne
    have hsame := ofCounted_cons first others
    refine ⟨hsame, fun i hi => ?_⟩
    rw [hsame] at hi
    cases h : ofLine first others <;> rw [h] at hi <;> cases hi

/-- A measure by itself is a name, and is one no more once it is heaped. -/
theorem ingredient_line_reads_back_cups :
    let word (w : Text) : Token := { kind := .word, lexeme := w }
    let two : Token := { kind := .number 2, lexeme := "2" }
    ∀ stop : Token,
      ingredientOf stop [two, word "heaped", word "cups", word "brown", word "sugar"] =
        .ok { name := "brown sugar", value := some 2, kind := .dry } ∧
      ingredientOf stop [two, word "cups"] =
        .ok { name := "cups", value := some 2, kind := .either } ∧
      (∃ e, ingredientOf stop [two, word "heaped", word "cups"] = .error e) ∧
      ∀ i, ofCounted [two, word "heaped", word "cups"] ≠ .error (.outside i) := by
  intro word two stop
  obtain ⟨hreads, hrefused, hcounted⟩ := ingredient_line_reads_back stop
  have hq : Numbered [two] (some 2) := .number rfl
  have hsugar := hreads [two] (some 2) [word "brown", word "sugar"] hq (by simp)
    (by simp only [List.forall_mem_cons]; exact ⟨plain_of_word rfl, plain_of_word rfl, nofun⟩)
  have hcups := hreads [two] (some 2) [word "cups"] hq (by simp)
    (by simp only [List.forall_mem_cons]; exact ⟨plain_of_word rfl, nofun⟩)
  refine ⟨?_, ?_, ?_, (hcounted [two, word "heaped", word "cups"] (by simp)).2⟩
  · exact (hsugar.1 (word "cups") .either rfl (by decide)).2 (word "heaped") rfl (.inl rfl)
  · exact (hcups.2 (word "cups") [] rfl).2 ⟨by simp [Heaps, word], .inr rfl, nofun⟩
  · obtain ⟨q, rest, v, hline, hquantity, hiff⟩ := hrefused [two, word "heaped", word "cups"]
    cases hquantity with
    | number _ =>
      have hrest := (List.cons.inj hline).2
      exact hiff.2 (.inr (.inr ⟨_, _, hrest.symm, .inl rfl, by simp [Measured]⟩))
    | none hnone =>
      cases hline
      exact absurd rfl (hnone two 2 rfl)

end

end Cookbook
