import Cookbook.Proofs.Draft.Lines

/-!
# Cookbook.Proofs.Draft.Sections

Each part of a recipe is read exactly where it is laid out.  `Reads` says that of
a reading: it succeeds on the tokens of its part and takes these tokens, given
what may stand behind them.  The parts that may be missing are told by the two
tokens they open with (`Opening.here_iff`), and a part that is not there is
passed over (`whenHere_eq_ok_iff`).
-/

namespace Cookbook

open Text Layout

/-! ## Streams -/

namespace TokenStream

variable {s s' : TokenStream} {t : Token} {ts us : List Token}

/-- A stream with some tokens in front. -/
def push (s : TokenStream) (ts : List Token) : TokenStream := { s with ahead := ts ++ s.ahead }

@[simp] theorem ahead_push : (s.push ts).ahead = ts ++ s.ahead := rfl

@[simp] theorem push_nil : s.push [] = s := rfl

@[simp] theorem push_push : (s.push us).push ts = s.push (ts ++ us) := by simp [push]

@[simp] theorem peek_push_cons : (s.push (t :: ts)).peek = t := rfl

@[simp] theorem drop_push_cons : (s.push (t :: ts)).drop 1 = s.push ts := rfl

theorem eq_push_iff : s = s'.push ts ↔ s.ahead = ts ++ s'.ahead ∧ s.finish = s'.finish := by
  cases s
  simp [push]

theorem push_inj (h : s.push ts = s.push us) : ts = us :=
  List.append_cancel_right (congrArg ahead h)

theorem exists_push_of_ahead {rest : List Token} (h : s.ahead = ts ++ rest) :
    ∃ s₁ : TokenStream, s = s₁.push ts ∧ s₁.ahead = rest :=
  ⟨⟨rest, s.finish⟩, eq_push_iff.2 ⟨h, rfl⟩, rfl⟩

/-- A stream as scanning gives it. -/
structure Proper (s : TokenStream) : Prop where
  scanned : Scanned s.ahead
  finish : s.finish.kind = .finish

theorem proper_ofText (text : Text) : (ofText text).Proper :=
  ⟨scanned_ofText text, kind_finish_stream _⟩

theorem Proper.of_push (h : (s.push ts).Proper) : s.Proper :=
  ⟨h.scanned.of_suffix ⟨ts, rfl⟩, h.finish⟩

theorem Proper.dropWhile (h : s.Proper) (p : Token → Bool) :
    Proper { s with ahead := s.ahead.dropWhile p } :=
  ⟨h.scanned.of_suffix (List.dropWhile_suffix p), h.finish⟩

theorem Proper.kind_ne_finish (h : s.Proper) : ∀ t ∈ s.ahead, t.kind ≠ .finish :=
  fun _ ht => h.scanned.kind_ne_finish ht

/-- A token that does not end the text can be taken. -/
theorem Proper.eq_push_peek (h : s.Proper) (hpeek : s.peek.kind ≠ .finish) :
    s = (s.drop 1).push [s.peek] := by
  obtain ⟨ahead, finish⟩ := s
  cases ahead with
  | nil => exact absurd h.finish hpeek
  | cons t ahead => rfl

end TokenStream

/-! ## Where parts open -/

namespace Layout

/-- Looks for the two tokens that open a part. -/
def Opening.here : Opening → Reading Bool
  | ingredients => Reading.atHeading .ingredients
  | cookingTime => Reading.atWords "Cooking" "time:"
  | oven => Reading.atWords "Pre-heat" "oven"
  | method => Reading.atHeading .method

theorem Opening.opens_append_iff {o : Opening} {ts rest : List Token} (h : 2 ≤ ts.length) :
    o.Opens (ts ++ rest) ↔ o.Opens ts := by
  match ts, h with
  | _ :: _ :: _, _ => cases o <;> rfl

theorem Opening.Opens.two_le_length {o : Opening} {ts : List Token} (h : o.Opens ts) :
    2 ≤ ts.length := by
  match ts, h with
  | [], h => cases o <;> exact h.elim
  | [_], h => cases o <;> exact h.elim
  | _ :: _ :: _, _ => simp

theorem Opening.Opens.append {o : Opening} {ts : List Token} (h : o.Opens ts) (rest : List Token) :
    o.Opens (ts ++ rest) :=
  (opens_append_iff h.two_le_length).2 h

/-- Tokens are opened by one part at most. -/
theorem Opening.opens_unique {o o' : Opening} {ts : List Token} (hs : Scanned ts)
    (h : o.Opens ts) (h' : o'.Opens ts) : o = o' := by
  match ts, h, h', h.two_le_length with
  | a :: b :: ts, h, h', _ =>
    have hk := hs.kind a (by simp)
    have hcooking : a.lexeme = "Cooking" → a.kind = .word := fun hl => hk.trans (hl ▸ by decide)
    have hpreheat : a.lexeme = "Pre-heat" → a.kind = .word := fun hl => hk.trans (hl ▸ by decide)
    have hne : ofString "Cooking" ≠ ofString "Pre-heat" := by decide
    cases o <;> cases o' <;> grind [Opening.Opens]

/-- The tokens of a part are found where it opens. -/
theorem Opening.here_iff (o : Opening) {s : TokenStream} (hs : s.Proper) :
    ∃ b, o.here s = .ok (b, s) ∧ (b = true ↔ o.Opens s.ahead) := by
  obtain ⟨ahead, finish⟩ := s
  have hfinish : finish.kind = .finish := hs.finish
  have hscanned : Scanned ahead := hs.scanned
  rcases ahead with _ | ⟨a, _ | ⟨b, rest⟩⟩
  · cases o <;>
      simp [here, Opens, Reading.atHeading_def, Reading.atWords_def, TokenStream.peek,
        TokenStream.drop, Token.isWord, hfinish]
  · cases o <;>
      simp [here, Opens, Reading.atHeading_def, Reading.atWords_def, TokenStream.peek,
        TokenStream.drop, Token.isWord, hfinish]
  · -- a token with the lexeme of a word is a word
    have hword {t : Token} (ht : t ∈ a :: b :: rest) {w : Text}
        (hw : Token.Kind.ofLexeme w = .word) (hl : t.lexeme = w) : t.isWord = true := by
      simp [Token.isWord, hscanned.kind t ht, hl, hw]
    have hiff (first second : Text) (hfirst : Token.Kind.ofLexeme first = .word)
        (hsecond : Token.Kind.ofLexeme second = .word) :
        (a.isWord && a.lexeme = first && b.isWord && b.lexeme = second) = true ↔
          a.lexeme = first ∧ b.lexeme = second := by
      simp only [Bool.and_eq_true, decide_eq_true_eq]
      constructor
      · rintro ⟨⟨⟨-, ha⟩, -⟩, hb⟩
        exact ⟨ha, hb⟩
      · rintro ⟨ha, hb⟩
        exact ⟨⟨⟨hword (by simp) hfirst ha, ha⟩, hword (by simp) hsecond hb⟩, hb⟩
    cases o with
    | ingredients | method =>
      simp [here, Opens, Reading.atHeading_def, TokenStream.peek, TokenStream.drop]
    | cookingTime => exact ⟨_, rfl, hiff "Cooking" "time:" (by decide) (by decide)⟩
    | oven => exact ⟨_, rfl, hiff "Pre-heat" "oven" (by decide) (by decide)⟩

end Layout

namespace Grammar

open Reading

/-! ## Readings of parts -/

/-- Whether a reading succeeds exactly on the tokens of a part, and takes them.
A part is told by its tokens, what they stand for and the tokens behind it. -/
def Reads (r : Reading α) (part : List Token → α → List Token → Prop) : Prop :=
  ∀ ⦃s s' : TokenStream⦄ ⦃a : α⦄, s.Proper →
    (r s = .ok (a, s') ↔ ∃ ts, s = s'.push ts ∧ part ts a s'.ahead)

section

variable {s s' : TokenStream} {r : Reading α} {f : α → Reading β} {a : α} {b : β}
  {part : List Token → α → List Token → Prop}

/-- A reading behind another begins where the first part ends. -/
theorem Reads.bind_eq_ok_iff (h : Reads r part) (hs : s.Proper) :
    (r >>= f) s = .ok (b, s') ↔
      ∃ ts a s₁, s = s₁.push ts ∧ part ts a s₁.ahead ∧ f a s₁ = .ok (b, s') := by
  rw [Reading.bind_eq_ok_iff]
  constructor
  · rintro ⟨a, s₁, hr, hf⟩
    obtain ⟨ts, heq, hpart⟩ := (h hs).1 hr
    exact ⟨ts, a, s₁, heq, hpart, hf⟩
  · rintro ⟨ts, a, s₁, heq, hpart, hf⟩
    exact ⟨a, s₁, (h hs).2 ⟨ts, heq, hpart⟩, hf⟩

theorem ofTokens_eq_ok_iff {f : Token → List Token → Except ParseError (α × List Token)} :
    ofTokens f s = .ok (a, s') ↔ f s.finish s.ahead = .ok (a, s'.ahead) ∧ s.finish = s'.finish := by
  obtain ⟨ahead', finish'⟩ := s'
  simp only [ofTokens_def]
  split
  · next a₁ rest hf => simp [hf, and_assoc]
  · next e hf => simp [hf]

/-- A part that may be missing is read where it opens and passed over
elsewhere. -/
theorem whenHere_eq_ok_iff {o : Opening} {p : List Token → α → Prop} {absent : α}
    (hr : o.Opens s.ahead → (r s = .ok (a, s') ↔ ∃ ts, s = s'.push ts ∧ p ts a))
    (hopens : ∀ {ts a}, p ts a → o.Opens ts) (hs : s.Proper) :
    whenHere o.here absent r s = .ok (a, s') ↔
      ∃ ts, s = s'.push ts ∧ Optional p absent ts a ∧ (ts = [] → ¬ o.Opens s'.ahead) := by
  obtain ⟨here, heq, hiff⟩ := o.here_iff hs
  have hread : whenHere o.here absent r s = if here then r s else .ok (absent, s) := by
    rw [whenHere, bind_def, heq]
    cases here <;> rfl
  rw [hread]
  constructor
  · intro h
    cases here with
    | true =>
      obtain ⟨ts, rfl, hp⟩ := (hr (hiff.1 rfl)).1 h
      refine ⟨ts, rfl, .here hp, ?_⟩
      rintro rfl
      exact absurd (hopens hp).two_le_length (by simp)
    | false =>
      cases h
      exact ⟨[], rfl, .missing, fun _ hopen => absurd (hiff.2 hopen) (by simp)⟩
  · rintro ⟨ts, rfl, hp, hnone⟩
    cases hp with
    | here hp =>
      have hopen : o.Opens (s'.push ts).ahead := (hopens hp).append _
      rw [hiff.2 hopen, if_pos rfl, hr hopen]
      exact ⟨ts, rfl, hp⟩
    | missing =>
      have hfalse : ¬ here = true := fun hh => hnone rfl (hiff.1 hh)
      rw [if_neg hfalse]
      rfl

end

/-! ## Lines and breaks -/

/-- Whether a line ends before some tokens. -/
def AtBreak (rest : List Token) : Prop := ∀ t, rest.head? = some t → t.isBreak

theorem reads_takeWhile (p : Token → Bool) :
    Reads (Reading.takeWhile p) fun ts words rest =>
      words = ts ∧ (∀ t ∈ ts, p t) ∧ ∀ t, rest.head? = some t → ¬ p t := by
  intro s s' words hs
  constructor
  · intro h
    cases h
    refine ⟨s.ahead.takeWhile p, ?_, rfl, fun t ht => List.mem_takeWhile_imp ht, fun t ht => ?_⟩
    · exact TokenStream.eq_push_iff.2 ⟨List.takeWhile_append_dropWhile.symm, rfl⟩
    · have hhead := List.head?_dropWhile_not p s.ahead
      rw [ht] at hhead
      simpa using hhead
  · rintro ⟨ts, rfl, rfl, hts, hrest⟩
    have hnone : s'.ahead.takeWhile p = [] ∧ s'.ahead.dropWhile p = s'.ahead := by
      cases hahead : s'.ahead with
      | nil => simp
      | cons t rest => simp [hrest t (by rw [hahead]; rfl)]
    simp only [takeWhile_def, TokenStream.ahead_push, List.takeWhile_append_of_pos hts,
      List.dropWhile_append_of_pos hts, hnone, List.append_nil]
    rfl

theorem reads_line : Reads line fun ts words rest =>
    words = ts ∧ (∀ t ∈ ts, t.isBreak = false) ∧ AtBreak rest := by
  intro s s' words hs
  rw [line, reads_takeWhile _ hs]
  simp [AtBreak]

section

variable {part : ParseError.Part} {s : TokenStream} {t : Token}

theorem isBreak_of_isLineEnd (ht : t.isLineEnd) : t.isBreak := by
  unfold Token.isLineEnd at ht
  unfold Token.isBreak
  grind

theorem line_push {ts : List Token} (hts : ∀ t ∈ ts, t.isBreak = false) (ht : t.isLineEnd) :
    line (s.push (ts ++ [t])) = .ok (ts, s.push [t]) := by
  have hts' : ∀ t ∈ ts, (fun t : Token => !t.isBreak) t := fun t ht => by simp [hts t ht]
  simp [line, takeWhile_def, List.takeWhile_append_of_pos hts',
    List.dropWhile_append_of_pos hts', isBreak_of_isLineEnd ht, TokenStream.push]

theorem newLineAfter_push (ht : t.isLineEnd) : newLineAfter part (s.push [t]) = .ok ((), s) := by
  simp [newLineAfter, bind_def, next_def, ht, pure_def]

theorem blankLineAfter_push (ht : t.kind = .blankLine) :
    blankLineAfter part (s.push [t]) = .ok ((), s) := by
  simp [blankLineAfter, bind_def, next_def, ht, pure_def]

end

theorem reads_newLineAfter (part : ParseError.Part) :
    Reads (newLineAfter part) fun ts _ _ => ∃ t, ts = [t] ∧ t.isLineEnd := by
  intro s s' _ hs
  constructor
  · intro h
    obtain ⟨t, s₁, hnext, h⟩ := bind_eq_ok_iff.1 h
    cases hnext
    split at h
    · next hend =>
      cases h
      refine ⟨[s.peek], hs.eq_push_peek fun hk => ?_, s.peek, rfl, hend⟩
      simp [Token.isLineEnd, hk] at hend
    · cases h
  · rintro ⟨_, rfl, t, rfl, ht⟩
    exact newLineAfter_push ht

theorem reads_blankLineAfter (part : ParseError.Part) :
    Reads (blankLineAfter part) fun ts _ _ => ∃ t, ts = [t] ∧ t.kind = .blankLine := by
  intro s s' _ hs
  constructor
  · intro h
    obtain ⟨t, s₁, hnext, h⟩ := bind_eq_ok_iff.1 h
    cases hnext
    split at h
    · next hblank =>
      cases h
      exact ⟨[s.peek], hs.eq_push_peek (by simp [hblank]), s.peek, rfl, hblank⟩
    · cases h
  · rintro ⟨_, rfl, t, rfl, ht⟩
    exact blankLineAfter_push ht

/-- A heading that is known to be there takes a line of its own. -/
theorem heading_eq_ok_iff {part : ParseError.Part} {s s' : TokenStream} {a b : Token} {u : Unit}
    (hs : s.Proper) : heading part (s.push [a, b]) = .ok (u, s') ↔
      ∃ br, s = s'.push [br] ∧ br.kind = .lineBreak := by
  have hread : heading part (s.push [a, b]) =
      (if s.peek.kind = .lineBreak then pure ()
        else refuse s.peek (.noNewLineAfter part s.peek.kind) : Reading Unit) (s.drop 1) := rfl
  rw [hread]
  constructor
  · intro h
    split at h
    · next hbr =>
      cases h
      exact ⟨s.peek, hs.eq_push_peek (by simp [hbr]), hbr⟩
    · cases h
  · rintro ⟨br, rfl, hbr⟩
    rw [TokenStream.peek_push_cons, if_pos hbr]
    rfl

/-! ## Title and comment -/

theorem reads_title : Reads title fun ts r rest => Title ts r.1 r.2 ∧ AtBreak rest := by
  intro s s' r hs
  constructor
  · intro h
    obtain ⟨first, _, hpeek, h⟩ := bind_eq_ok_iff.1 h
    cases hpeek
    obtain ⟨ts, words, s₁, rfl, ⟨rfl, hline, hend⟩, h⟩ := (reads_line.bind_eq_ok_iff hs).1 h
    rcases List.eq_nil_or_concat words with rfl | ⟨words, stop, rfl⟩
    · cases h
    · simp only [List.concat_eq_append, List.getLast?_concat, List.dropLast_concat] at h hline ⊢
      split at h
      · cases h
      · next hcond =>
        simp only [Bool.or_eq_true, List.isEmpty_iff, decide_eq_true_eq, not_or,
          Decidable.not_not] at hcond
        cases hfind : words.find? Token.isStray with
        | some t => simp [hfind, refuse_def] at h
        | none =>
          simp only [hfind] at h
          cases h
          obtain ⟨first, others, rfl⟩ := List.exists_cons_of_ne_nil hcond.1
          refine ⟨first :: (others ++ [stop]), rfl, .intro (fun t ht => ⟨?_, ?_⟩) hcond.2, hend⟩
          · exact hline t (List.mem_append_left _ ht)
          · simpa using List.find?_eq_none.1 hfind t ht
  · rintro ⟨ts, rfl, htitle, hend⟩
    obtain ⟨name, location⟩ := r
    cases htitle with
    | @intro first stop others hwords hstop =>
      have hline : ∀ t ∈ first :: (others ++ [stop]), t.isBreak = false := by
        rw [← List.cons_append, List.forall_mem_append]
        refine ⟨fun t ht => (hwords t ht).1, List.forall_mem_singleton.2 ?_⟩
        simp [Token.isBreak, hstop]
      have hread : line (s'.push (first :: (others ++ [stop]))) =
          .ok (first :: (others ++ [stop]), s') := (reads_line hs).2 ⟨_, rfl, rfl, hline, hend⟩
      have hfind : (first :: others).find? Token.isStray = none := by
        rw [List.find?_eq_none]
        exact fun t ht => by simp [(hwords t ht).2]
      have hlast : (first :: (others ++ [stop])).getLast? = some stop := by
        rw [← List.cons_append, List.getLast?_concat]
      have hdrop : (first :: (others ++ [stop])).dropLast = first :: others := by
        rw [← List.cons_append, List.dropLast_concat]
      have hkeep : ((first :: others).isEmpty || decide (stop.kind ≠ .period)) = false := by
        simp [hstop]
      simp only [title, bind_def, peek_def, hread, hlast, hdrop, hfind, hkeep, Bool.false_eq_true,
        if_false, pure_def, TokenStream.peek_push_cons]
      rfl

theorem reads_comment : Reads comment fun ts text _ => Comment ts text := by
  intro s s' text hs
  rw [comment, (reads_takeWhile _).bind_eq_ok_iff hs]
  constructor
  · rintro ⟨ts, words, s₁, rfl, ⟨rfl, hwords, -⟩, h⟩
    obtain ⟨_, _, s₂, rfl, ⟨blank, rfl, hblank⟩, hrest⟩ :=
      ((reads_blankLineAfter _).bind_eq_ok_iff hs.of_push).1 h
    cases hrest
    refine ⟨words ++ [blank], by simp, .intro (fun t ht => ?_) hblank⟩
    have hword := hwords t ht
    simp only [Bool.and_eq_true, decide_eq_true_eq] at hword
    exact hword.1
  · rintro ⟨_, rfl, hcomment⟩
    cases hcomment with
    | @intro ts blank hts hblank =>
      refine ⟨ts, ts, s'.push [blank], by simp, ⟨rfl, fun t ht => ?_, ?_⟩, ?_⟩
      · have hfinish : t.kind ≠ .finish := hs.kind_ne_finish t (by simp [ht])
        simp [hts t ht, hfinish]
      · simp [hblank]
      · rw [bind_def, blankLineAfter_push hblank]
        rfl

/-- The parts that may follow a title are looked for in turn. -/
theorem atPart_iff {s : TokenStream} (hs : s.Proper) :
    ∃ b, atPart s = .ok (b, s) ∧ (b = true ↔ ∃ o : Opening, o.Opens s.ahead) := by
  obtain ⟨b₁, h₁, hiff₁⟩ := Opening.ingredients.here_iff hs
  obtain ⟨b₂, h₂, hiff₂⟩ := Opening.method.here_iff hs
  obtain ⟨b₃, h₃, hiff₃⟩ := Opening.cookingTime.here_iff hs
  obtain ⟨b₄, h₄, hiff₄⟩ := Opening.oven.here_iff hs
  simp only [Opening.here] at h₁ h₂ h₃ h₄
  refine ⟨b₁ || b₂ || b₃ || b₄, by simp only [atPart, bind_def, h₁, h₂, h₃, h₄, pure_def], ?_⟩
  simp only [Bool.or_eq_true, hiff₁, hiff₂, hiff₃, hiff₄]
  constructor
  · rintro (((h | h) | h) | h)
    all_goals exact ⟨_, h⟩
  · rintro ⟨o, h⟩
    cases o <;> simp [h]

theorem reads_optionalComment : Reads optionalComment fun ts text rest =>
    Optional Comment [] ts text ∧ (ts = [] ↔ ∃ o : Opening, o.Opens (ts ++ rest)) := by
  intro s s' text hs
  obtain ⟨b, heq, hiff⟩ := atPart_iff hs
  have hread : optionalComment s = if b then .ok ([], s) else comment s := by
    rw [optionalComment, bind_def, heq]
    cases b <;> rfl
  rw [hread]
  constructor
  · intro h
    cases b with
    | true =>
      cases h
      exact ⟨[], rfl, .missing, by simpa using hiff⟩
    | false =>
      obtain ⟨ts, rfl, hcomment⟩ := (reads_comment hs).1 h
      refine ⟨ts, rfl, .here hcomment, ?_⟩
      cases hcomment with
      | intro => simpa using hiff
  · rintro ⟨ts, rfl, hcomment, hopens⟩
    rw [TokenStream.ahead_push, ← hopens] at hiff
    cases hcomment with
    | here hcomment =>
      have hfalse : ¬ b = true := by
        rw [hiff]
        cases hcomment with
        | intro => simp
      rw [if_neg hfalse]
      exact (reads_comment hs).2 ⟨ts, rfl, hcomment⟩
    | missing =>
      rw [if_pos (hiff.2 rfl)]
      rfl

/-! ## Ingredients -/

/-- A stream that a part opens holds two tokens at least. -/
theorem exists_push_of_opens {o : Opening} {s : TokenStream} (h : o.Opens s.ahead) :
    ∃ a b, ∃ s₁ : TokenStream, s = s₁.push [a, b] := by
  obtain ⟨ahead, finish⟩ := s
  match ahead, h.two_le_length with
  | a :: b :: rest, _ => exact ⟨a, b, ⟨rest, finish⟩, rfl⟩

theorem ingredients_eq_ok_iff {s s' : TokenStream} {is : List Ingredient} (hs : s.Proper)
    (hopen : Opening.ingredients.Opens s.ahead) :
    ingredients s = .ok (is, s') ↔ ∃ ts, s = s'.push ts ∧ Ingredients ts is := by
  constructor
  · intro h
    obtain ⟨a, b, s₁, rfl⟩ := exists_push_of_opens hopen
    obtain ⟨_, s₂, hheading, h₂⟩ := bind_eq_ok_iff.1 h
    obtain ⟨br, rfl, hbr⟩ := (heading_eq_ok_iff hs.of_push).1 hheading
    obtain ⟨js, s₃, hlines, h₃⟩ := bind_eq_ok_iff.1 h₂
    rw [ofTokens_eq_ok_iff, ingredientLines_eq_ok_iff] at hlines
    obtain ⟨⟨-, ts, hts, hjs⟩, hfinish⟩ := hlines
    obtain rfl := TokenStream.eq_push_iff.2 ⟨hts, hfinish⟩
    have hs₃ : s₃.Proper := hs.of_push.of_push.of_push
    obtain ⟨_, _, s₄, rfl, ⟨blank, rfl, hblank⟩, h₄⟩ :=
      ((reads_blankLineAfter _).bind_eq_ok_iff hs₃).1 h₃
    cases h₄
    exact ⟨a :: b :: br :: (ts ++ [blank]), by simp, .intro hopen.1 hopen.2 hbr hjs hblank⟩
  · rintro ⟨_, rfl, hing⟩
    cases hing with
    | @intro a b br blank ts _ hheading hstop hbr hlines hblank =>
      have hpush : s'.push (a :: b :: br :: (ts ++ [blank])) =
          ((s'.push (ts ++ [blank])).push [br]).push [a, b] := by simp
      rw [hpush] at hs ⊢
      have hread : heading .ingredientsHeading
          (((s'.push (ts ++ [blank])).push [br]).push [a, b]) = .ok ((), s'.push (ts ++ [blank])) :=
        (heading_eq_ok_iff hs.of_push).2 ⟨br, rfl, hbr⟩
      have hend : EndsLines (blank :: s'.ahead) := by
        intro t ht
        rw [List.head?_cons, Option.some.injEq] at ht
        simp [← ht, Token.isBreak, hblank]
      have his : ofTokens (fun finish ahead => ingredientLines finish ahead [])
          (s'.push (ts ++ [blank])) = .ok (is, s'.push [blank]) :=
        ofTokens_eq_ok_iff.2 ⟨ingredientLines_eq_ok_iff.2 ⟨hend, ts, by simp, hlines⟩, rfl⟩
      have hafter : blankLineAfter .ingredientList (s'.push [blank]) = .ok ((), s') :=
        blankLineAfter_push hblank
      simp only [ingredients, bind_def, hread, his, hafter, pure_def]

end Grammar

/-! ## Cooking time and oven -/

/-- Only a lexeme that begins with a line feed makes a break. -/
theorem Scanned.isBreak_of_head? {ts : List Token} {t : Token} (hs : Scanned ts) (ht : t ∈ ts)
    (hhead : t.lexeme.head? ≠ some lineFeed) : t.isBreak = false := by
  obtain ⟨b, rest, hlexeme⟩ := List.exists_cons_of_ne_nil (hs.isLexeme ht).ne_nil
  have hb : b ≠ lineFeed := by simpa [hlexeme] using hhead
  simp only [Token.isBreak, hs.kind t ht, hlexeme, Token.Kind.ofLexeme, if_neg hb,
    Token.Kind.ofDigits, Token.Kind.ofWord]
  grind

/-- A number does not begin with a line feed. -/
theorem Layout.Numeral.head?_ne {digits rest : Text} {n : Int}
    (h : Numeral digits n) : (digits ++ rest).head? ≠ some lineFeed := by
  cases h with
  | natural hne hdigits =>
    obtain ⟨b, others, rfl⟩ := List.exists_cons_of_ne_nil hne
    rw [List.cons_append, List.head?_cons, ne_eq, Option.some.injEq]
    rintro rfl
    exact absurd (List.all_eq_true.1 hdigits lineFeed (by simp)) (by decide)
  | negative hne hdigits => simp [lineFeed]

namespace Decimal

/-- The number in front of some text that does not go on with a digit. -/
theorem leadingInt64?_eq_some_iff {t rest : Text} {n : Int64}
    (hrest : ∀ b, rest.head? = some b → isDigit b = false) :
    leadingInt64? t = some (n, rest) ↔ ∃ digits, t = digits ++ rest ∧ Numeral digits n.toInt := by
  -- the digits in front of the rest are those that are taken
  have hsplit {digits : Text} (hdigits : digits.all isDigit) :
      (digits ++ rest).takeWhile isDigit = digits ∧ (digits ++ rest).dropWhile isDigit = rest := by
    have hall : ∀ b ∈ digits, isDigit b := List.all_eq_true.1 hdigits
    rw [List.takeWhile_append_of_pos hall, List.dropWhile_append_of_pos hall]
    cases rest with
    | nil => simp
    | cons b rest => simp [hrest b rfl]
  constructor
  · intro h
    simp only [leadingInt64?, nat?, Option.bind_eq_some_iff, Option.map_eq_some_iff,
      Option.ite_none_right_eq_some, Option.some.injEq, Prod.mk.injEq, int64?_eq_some_iff] at h
    obtain ⟨m, ⟨⟨hne, hdigits⟩, rfl⟩, v, hv, rfl, rfl⟩ := h
    by_cases hneg : t.head? = some 45
    · obtain ⟨body, rfl⟩ := List.head?_eq_some_iff.1 hneg
      simp only [List.head?_cons, if_true, List.tail_cons] at hne hdigits hv ⊢
      refine ⟨45 :: body.takeWhile isDigit, by simp, ?_⟩
      rw [hv]
      exact .negative hne hdigits
    · simp only [hneg, if_false] at hne hdigits hv ⊢
      refine ⟨t.takeWhile isDigit, by simp, ?_⟩
      rw [hv]
      exact .natural hne hdigits
  · rintro ⟨digits, rfl, hn⟩
    generalize hm : n.toInt = m at hn
    cases hn with
    | natural hne hdigits =>
      obtain ⟨b, others, hcons⟩ := List.exists_cons_of_ne_nil hne
      have hhead : ¬ (digits ++ rest).head? = some 45 := by
        rw [hcons, List.cons_append, List.head?_cons, Option.some.injEq]
        rintro rfl
        exact absurd (List.all_eq_true.1 hdigits 45 (by simp [hcons])) (by decide)
      have hint : int64? (value digits) = some n := int64?_eq_some_iff.2 hm
      simp only [leadingInt64?, if_neg hhead, nat?, hsplit hdigits]
      simp [hne, hdigits, hint]
    | @negative digits hne hdigits =>
      have hint : int64? (-(value digits : Int)) = some n := int64?_eq_some_iff.2 hm
      simp [leadingInt64?, nat?, hsplit hdigits, hne, hdigits, hint]

end Decimal

namespace Grammar

open Reading

theorem cookingTimeOf?_eq_some_iff {ts : List Token} {n : Int64} :
    cookingTimeOf? ts = some n ↔ ∃ cooking time number unit stop,
      ts = [cooking, time, number, unit, stop] ∧ time.lexeme = "time:" ∧ number.kind = .number n ∧
        unit.lexeme ∈ [ofString "minute", "minutes", "hour", "hours"] ∧ stop.kind = .period := by
  constructor
  · intro h
    rw [cookingTimeOf?.eq_def] at h
    split at h
    · next cooking time number unit stop =>
      split at h
      · next m hm =>
        split at h
        · next hcond =>
          cases h
          exact ⟨_, _, _, _, _, rfl, hcond.1, hm, by simpa using hcond.2.2, hcond.2.1⟩
        · cases h
      · cases h
    · cases h
  · rintro ⟨cooking, time, number, unit, stop, rfl, htime, hnumber, hunit, hstop⟩
    simp only [cookingTimeOf?, hnumber]
    rw [if_pos ⟨htime, hstop, by simpa using hunit⟩]

theorem cookingTime_eq_ok_iff {s s' : TokenStream} {v : Option Int64} (hs : s.Proper)
    (hopen : Opening.cookingTime.Opens s.ahead) :
    cookingTime s = .ok (v, s') ↔ ∃ ts, s = s'.push ts ∧ CookingTime ts v := by
  constructor
  · intro h
    obtain ⟨_, _, hpeek, h₁⟩ := bind_eq_ok_iff.1 h
    cases hpeek
    obtain ⟨_, words, s₁, rfl, ⟨rfl, -, -⟩, h₂⟩ := (reads_line.bind_eq_ok_iff hs).1 h₁
    cases hn : cookingTimeOf? words with
    | none => simp [hn, refuse_def] at h₂
    | some n =>
      simp only [hn] at h₂
      obtain ⟨cooking, time, number, unit, stop, rfl, htime, hnumber, hunit, hstop⟩ :=
        cookingTimeOf?_eq_some_iff.1 hn
      obtain ⟨_, _, s₂, rfl, ⟨br, rfl, hbr⟩, h₃⟩ :=
        ((reads_newLineAfter _).bind_eq_ok_iff hs.of_push).1 h₂
      cases h₃
      exact ⟨[cooking, time, number, unit, stop, br], by simp,
        .intro hopen.1 htime hnumber hunit hstop hbr⟩
  · rintro ⟨_, rfl, htime⟩
    cases htime with
    | @intro cooking time number unit stop br n hcooking htime hnumber hunit hstop hbr =>
      have hword {t : Token} (ht : t ∈ [cooking, time, number, unit, stop, br])
          (hhead : t.lexeme.head? ≠ some lineFeed) : t.isBreak = false :=
        hs.scanned.isBreak_of_head? (List.mem_append_left _ ht) hhead
      have hunit' : unit.lexeme.head? ≠ some lineFeed := by
        simp only [List.mem_cons, List.not_mem_nil, or_false] at hunit
        rcases hunit with h | h | h | h <;> rw [h] <;> decide
      have hplain : ∀ t ∈ [cooking, time, number, unit, stop], t.isBreak = false := by
        simp only [List.forall_mem_cons]
        exact ⟨hword (by simp) (by rw [hcooking]; decide),
          hword (by simp) (by rw [htime]; decide), by simp [Token.isBreak, hnumber],
          hword (by simp) hunit', by simp [Token.isBreak, hstop], by simp⟩
      have hline : line (s'.push [cooking, time, number, unit, stop, br]) =
          .ok ([cooking, time, number, unit, stop], s'.push [br]) := line_push hplain hbr
      have hof := cookingTimeOf?_eq_some_iff.2
        ⟨cooking, time, number, unit, stop, rfl, htime, hnumber, hunit, hstop⟩
      simp only [cookingTime, bind_def, peek_def, hline, hof, newLineAfter_push hbr, pure_def]

theorem ovenOf?_eq_some_iff {ts gas : List Token} {n : Int64} :
    ovenOf? ts = some (n, gas) ↔ ∃ preheat oven towards number degrees celsius stop,
      ts = preheat :: oven :: towards :: number :: degrees :: celsius :: (gas ++ [stop]) ∧
        oven.lexeme = "oven" ∧ towards.lexeme = "to" ∧ number.kind = .number n ∧
          degrees.lexeme = "degrees" ∧ celsius.lexeme = "Celsius" ∧ stop.kind = .period := by
  constructor
  · intro h
    rw [ovenOf?.eq_def] at h
    split at h
    · next preheat oven towards number degrees celsius others =>
      split at h
      · next m hm =>
        split at h
        · next hcond =>
          cases h
          obtain ⟨hoven, htowards, hdegrees, hcelsius, hlast⟩ := hcond
          obtain ⟨stop, hstop, hk⟩ := Option.map_eq_some_iff.1 hlast
          have hothers : others = others.dropLast ++ [stop] :=
            (List.dropLast_append_getLast? stop hstop).symm
          exact ⟨preheat, oven, towards, number, degrees, celsius, stop, by rw [← hothers], hoven,
            htowards, hm, hdegrees, hcelsius, hk⟩
        · cases h
      · cases h
    · cases h
  · rintro ⟨preheat, oven, towards, number, degrees, celsius, stop, rfl, hoven, htowards, hnumber,
      hdegrees, hcelsius, hstop⟩
    simp [ovenOf?, hnumber, hoven, htowards, hdegrees, hcelsius, hstop]

theorem gasMarkOf?_eq_some_iff {gas mark number : Token} {n : Int64} :
    gasMarkOf? gas mark number = some n ↔ GasMark [gas, mark, number] (some n) := by
  have hbracket : ∀ b, (ofString ")").head? = some b → isDigit b = false := by
    intro b hb
    have hbyte : (ofString ")").head? = some 41 := rfl
    rw [hbyte, Option.some.injEq] at hb
    rw [← hb]
    decide
  constructor
  · intro h
    rw [gasMarkOf?] at h
    split at h
    · next hwords =>
      split at h
      · next m rest hm =>
        split at h
        · next hrest =>
          cases h
          subst hrest
          obtain ⟨digits, hnumber, hdigits⟩ := (Decimal.leadingInt64?_eq_some_iff hbracket).1 hm
          exact .intro hwords.1 hwords.2 hnumber hdigits
        · cases h
      · cases h
    · cases h
  · intro h
    cases h with
    | intro hgas hmark hnumber hn =>
      have hread : Decimal.leadingInt64? number.lexeme = some (n, ofString ")") :=
        (Decimal.leadingInt64?_eq_some_iff hbracket).2 ⟨_, hnumber, hn⟩
      simp only [gasMarkOf?, hgas, hmark, and_self, if_true, hread]

/-- What is read as an oven is laid out as one. -/
theorem exists_push_of_oven {s s' : TokenStream} {v : Option Int64 × Option Int64} (hs : s.Proper)
    (hopen : Opening.oven.Opens s.ahead) (h : oven s = .ok (v, s')) :
    ∃ ts, s = s'.push ts ∧ Oven ts v := by
  obtain ⟨_, _, hpeek, h₁⟩ := bind_eq_ok_iff.1 h
  cases hpeek
  obtain ⟨_, words, s₁, rfl, ⟨rfl, -, -⟩, h₂⟩ := (reads_line.bind_eq_ok_iff hs).1 h₁
  -- what is left to read once the degrees and the gas mark are known
  have hdone {n : Int64} {gas : List Token} {m : Option Int64}
      (hn : ovenOf? words = some (n, gas)) (hgas : Optional GasMark none gas m)
      (h₃ : (newLineAfter .oven >>= fun _ => pure (some n, m) : Reading _) s₁ = .ok (v, s')) :
      ∃ ts, s₁.push words = s'.push ts ∧ Oven ts v := by
    obtain ⟨preheat, oven, towards, number, degrees, celsius, stop, rfl, hoven, htowards, hnumber,
      hdegrees, hcelsius, hstop⟩ := ovenOf?_eq_some_iff.1 hn
    obtain ⟨_, _, s₂, rfl, ⟨br, rfl, hbr⟩, h₄⟩ :=
      ((reads_newLineAfter _).bind_eq_ok_iff hs.of_push).1 h₃
    cases h₄
    exact ⟨preheat :: oven :: towards :: number :: degrees :: celsius :: (gas ++ [stop, br]),
      by simp, .intro hopen.1 hoven htowards hnumber hdegrees hcelsius hgas hstop hbr⟩
  rcases hn : ovenOf? words with _ | ⟨n, gas⟩
  · simp [hn, refuse_def] at h₂
  · simp only [hn] at h₂
    -- only nothing and three words may stand before the period
    rcases gas with _ | ⟨gas, _ | ⟨mark, _ | ⟨number, _ | ⟨_, _⟩⟩⟩⟩
    · exact hdone hn .missing h₂
    · cases h₂
    · cases h₂
    · simp only at h₂
      cases hm : gasMarkOf? gas mark number with
      | none => simp [hm, refuse_def] at h₂
      | some m =>
        simp only [hm] at h₂
        exact hdone hn (.here (gasMarkOf?_eq_some_iff.1 hm)) h₂
    · cases h₂

/-- A gas mark holds no break. -/
theorem isBreak_of_gasMark {ts gas : List Token} {m : Option Int64}
    (h : Optional GasMark none gas m) (hs : Scanned ts) (hgas : gas ⊆ ts) :
    ∀ t ∈ gas, t.isBreak = false := by
  have hword {t : Token} (ht : t ∈ gas) (hhead : t.lexeme.head? ≠ some lineFeed) :
      t.isBreak = false := hs.isBreak_of_head? (hgas ht) hhead
  cases h with
  | missing => simp
  | here hmark =>
    cases hmark with
    | intro hfirst hsecond hnumber hn =>
      simp only [List.forall_mem_cons]
      exact ⟨hword (by simp) (by rw [hfirst]; decide), hword (by simp) (by rw [hsecond]; decide),
        hword (by simp) (by rw [hnumber]; exact hn.head?_ne), by simp⟩

/-- What is laid out as an oven is read as one. -/
theorem oven_push {s : TokenStream} {ts : List Token} {v : Option Int64 × Option Int64}
    (hs : (s.push ts).Proper) (h : Oven ts v) : oven (s.push ts) = .ok (v, s) := by
  cases h with
  | @intro preheat oven towards number degrees celsius stop br gas n m hpreheat hoven htowards
      hnumber hdegrees hcelsius hgas hstop hbr =>
    have hword {t : Token} (ht : t ∈ preheat :: oven :: towards :: number :: degrees :: celsius ::
        (gas ++ [stop, br])) (hhead : t.lexeme.head? ≠ some lineFeed) : t.isBreak = false :=
      hs.scanned.isBreak_of_head? (List.mem_append_left _ ht) hhead
    have hgasplain : ∀ t ∈ gas, t.isBreak = false :=
      isBreak_of_gasMark hgas hs.scanned fun t ht => by simp [ht]
    have hplain : ∀ t ∈ preheat :: oven :: towards :: number :: degrees :: celsius ::
        (gas ++ [stop]), t.isBreak = false := by
      simp only [List.forall_mem_cons, List.forall_mem_append]
      exact ⟨hword (by simp) (by rw [hpreheat]; decide), hword (by simp) (by rw [hoven]; decide),
        hword (by simp) (by rw [htowards]; decide), by simp [Token.isBreak, hnumber],
        hword (by simp) (by rw [hdegrees]; decide), hword (by simp) (by rw [hcelsius]; decide),
        hgasplain, by simp [Token.isBreak, hstop], by simp⟩
    have hline := line_push (s := s) hplain hbr
    simp only [List.cons_append, List.append_assoc, List.nil_append] at hline
    have hof : ovenOf? (preheat :: oven :: towards :: number :: degrees :: celsius ::
        (gas ++ [stop])) = some (n, gas) :=
      ovenOf?_eq_some_iff.2 ⟨_, _, _, _, _, _, _, rfl, hoven, htowards, hnumber, hdegrees,
        hcelsius, hstop⟩
    cases hgas with
    | missing =>
      simp only [Grammar.oven, bind_def, peek_def, hline, hof, newLineAfter_push hbr, pure_def]
    | here hmark =>
      cases hmark with
      | intro hfirst hsecond hlast hn =>
        have hread := gasMarkOf?_eq_some_iff.2 (.intro hfirst hsecond hlast hn)
        simp only [Grammar.oven, bind_def, peek_def, hline, hof, hread, newLineAfter_push hbr,
          pure_def]

theorem oven_eq_ok_iff {s s' : TokenStream} {v : Option Int64 × Option Int64} (hs : s.Proper)
    (hopen : Opening.oven.Opens s.ahead) :
    oven s = .ok (v, s') ↔ ∃ ts, s = s'.push ts ∧ Oven ts v := by
  refine ⟨exists_push_of_oven hs hopen, ?_⟩
  rintro ⟨ts, rfl, h⟩
  exact oven_push hs h

/-! ## Method and diners -/

/-- The heading of a method, which has to be there. -/
def methodHeading : Reading Unit := do
  if ← atHeading .method then heading .methodHeading
  else
    let t ← peek
    refuse t (.noMethod t.kind)

/-- The statements of a method, of which there is at least one. -/
def instructions : Reading (List Instruction) := do
  let is ← ofTokens fun _ ahead => statements ahead []
  if is.isEmpty then refuse (← peek) .noStatement else return is

/-- A method is its heading and its statements. -/
theorem method_eq : method = (do methodHeading; instructions) := by
  funext s
  obtain ⟨here, heq⟩ : ∃ here, atHeading .method s = .ok (here, s) := ⟨_, rfl⟩
  simp only [method, methodHeading, bind_def, heq]
  cases here with
  | false => rfl
  | true => simp only [if_true, instructions, bind_def]

theorem reads_methodHeading : Reads methodHeading fun ts _ _ => Heading ts := by
  intro s s' _ hs
  obtain ⟨here, heq, hiff⟩ := Opening.method.here_iff hs
  simp only [Opening.here] at heq
  rw [methodHeading, bind_def, heq]
  constructor
  · intro h
    cases here with
    | false => cases h
    | true =>
      have hopen : Opening.method.Opens s.ahead := hiff.1 rfl
      obtain ⟨a, b, s₁, rfl⟩ := exists_push_of_opens hopen
      obtain ⟨br, rfl, hbr⟩ := (heading_eq_ok_iff hs.of_push).1 h
      exact ⟨[a, b, br], by simp, .intro hopen.1 hopen.2 hbr⟩
  · rintro ⟨_, rfl, hheading⟩
    cases hheading with
    | @intro a b br hheading hstop hbr =>
      have hpush : s'.push [a, b, br] = (s'.push [br]).push [a, b] := by simp
      obtain rfl : here = true := hiff.2 ⟨hheading, hstop⟩
      rw [hpush] at hs ⊢
      exact (heading_eq_ok_iff hs.of_push).2 ⟨br, rfl, hbr⟩

theorem reads_instructions : Reads instructions fun us is rest =>
    Statements us is ∧ (∀ t ∈ us, t.kind ≠ .blankLine) ∧ EndsMethod rest := by
  intro s s' is hs
  constructor
  · intro h
    obtain ⟨js, s₁, hread, h₁⟩ := bind_eq_ok_iff.1 h
    rw [ofTokens_eq_ok_iff, statements_eq_ok_iff hs.kind_ne_finish] at hread
    obtain ⟨⟨hend, us, hus, hblank, hsentences⟩, hfinish⟩ := hread
    split at h₁
    · cases h₁
    · next hne =>
      cases h₁
      exact ⟨us, TokenStream.eq_push_iff.2 ⟨hus, hfinish⟩, ⟨by simpa using hne, hsentences⟩, hblank,
        hend⟩
  · rintro ⟨us, rfl, hstatements, hblank, hend⟩
    have his : ofTokens (fun _ ahead => statements ahead []) (s'.push us) = .ok (is, s') :=
      ofTokens_eq_ok_iff.2 ⟨(statements_eq_ok_iff hs.kind_ne_finish).2
        ⟨hend, us, rfl, hblank, hstatements.sentences⟩, rfl⟩
    have hempty : is.isEmpty = false := by simpa using hstatements.ne_nil
    simp only [instructions, bind_def, his, hempty, Bool.false_eq_true, if_false, pure_def]

theorem reads_method : Reads method fun ts is rest => ∃ heading us, ts = heading ++ us ∧
    Heading heading ∧ Statements us is ∧ (∀ t ∈ us, t.kind ≠ .blankLine) ∧ EndsMethod rest := by
  intro s s' is hs
  rw [method_eq, reads_methodHeading.bind_eq_ok_iff hs]
  constructor
  · rintro ⟨heading, _, s₁, rfl, hheading, h⟩
    obtain ⟨us, rfl, hus⟩ := (reads_instructions hs.of_push).1 h
    exact ⟨heading ++ us, by simp, heading, us, rfl, hheading, hus⟩
  · rintro ⟨_, rfl, heading, us, rfl, hheading, hus⟩
    rw [← TokenStream.push_push] at hs ⊢
    exact ⟨heading, (), s'.push us, rfl, hheading, (reads_instructions hs.of_push).2 ⟨us, rfl, hus⟩⟩

section

variable {s s' : TokenStream} {v : Option Int64}

theorem atBreak_iff_peek (hs : s.Proper) : AtBreak s.ahead ↔ s.peek.isBreak := by
  obtain ⟨ahead, finish⟩ := s
  have hfinish : finish.kind = .finish := hs.finish
  cases ahead with
  | nil => simp [AtBreak, TokenStream.peek, Token.isBreak, hfinish]
  | cons t ahead => simp [AtBreak, TokenStream.peek]

/-- The number of diners stands between `Serves` and a period. -/
theorem serves_push_eq_ok_iff {sv : Token} (hs : s.Proper) (hsv : sv.kind = .serves) :
    serves (s.push [sv]) = .ok (v, s') ↔ ∃ count stop n, s = s'.push [count, stop] ∧
      count.kind = .number n ∧ 1 ≤ n ∧ stop.kind = .period ∧ v = some n ∧ AtBreak s'.ahead := by
  have hto : toServes (s.push [sv]) = .ok ((), s.push [sv]) := by
    rw [toServes, if_neg (by simp [hsv])]
    rfl
  simp only [serves, bind_def, hto, peek_def, TokenStream.peek_push_cons, hsv, if_true, next_def,
    TokenStream.drop_push_cons, TokenStream.push_nil]
  constructor
  · intro h
    cases hcount : s.peek.kind with
    | number n =>
      obtain ⟨count, s₁, rfl⟩ : ∃ count, ∃ s₁ : TokenStream, s = s₁.push [count] :=
        ⟨_, _, hs.eq_push_peek (by simp [hcount])⟩
      simp only [TokenStream.peek_push_cons, TokenStream.drop_push_cons,
        TokenStream.push_nil] at hcount h
      simp only [hcount] at h
      split at h
      · cases h
      · next hlt =>
        obtain ⟨stop, _, hnext, h₂⟩ := bind_eq_ok_iff.1 h
        cases hnext
        split at h₂
        · next hstop =>
          obtain ⟨stop, s₂, rfl⟩ : ∃ stop, ∃ s₂ : TokenStream, s₁ = s₂.push [stop] :=
            ⟨_, _, hs.of_push.eq_push_peek (by simp [hstop])⟩
          obtain ⟨_, _, hpeek, h₃⟩ := bind_eq_ok_iff.1 h₂
          cases hpeek
          split at h₃
          · next hbreak =>
            cases h₃
            exact ⟨count, stop, n, by simp, hcount, Int64.not_lt.1 hlt, hstop, rfl,
              (atBreak_iff_peek hs.of_push.of_push).2 hbreak⟩
          · cases h₃
        · cases h₂
    | word | period | lineBreak | blankLine | ingredients | method | serves | finish | unexpected =>
      simp [hcount, refuse_def] at h
  · rintro ⟨count, stop, n, rfl, hcount, hn, hstop, rfl, hbreak⟩
    have hs' : s'.Proper := hs.of_push
    have hlt : ¬ n < 1 := Int64.not_lt.2 hn
    have hpeek : s'.peek.isBreak = true := (atBreak_iff_peek hs').1 hbreak
    simp [hcount, hlt, hstop, hpeek, bind_def, next_def, peek_def, pure_def]

/-- The number of diners may stand in a paragraph of its own. -/
theorem serves_push_append {blank : List Token} {sv : Token}
    (hblank : blank = [] ∨ ∃ t, blank = [t] ∧ t.kind = .blankLine) (hsv : sv.kind = .serves) :
    serves (s.push (blank ++ [sv])) = serves (s.push [sv]) := by
  rcases hblank with rfl | ⟨t, rfl, ht⟩
  · rfl
  · have hto : toServes (s.push [t, sv]) = toServes (s.push [sv]) := by
      simp [toServes, ht, hsv]
    rw [List.singleton_append, serves, bind_def, bind_def, hto]

/-- Where a method ends, nobody is served or `Serves` is next. -/
theorem servesNobody_or_exists_push (hend : EndsMethod s.ahead) :
    ServesNobody s.ahead ∨ ∃ (blank : List Token) (sv : Token) (s₁ : TokenStream),
      s = s₁.push (blank ++ [sv]) ∧ (blank = [] ∨ ∃ t, blank = [t] ∧ t.kind = .blankLine) ∧
        sv.kind = .serves := by
  obtain ⟨ahead, finish⟩ := s
  rcases hend with rfl | ⟨t, rest, rfl, hk | hk⟩
  · exact .inl (.inl rfl)
  · cases rest with
    | nil => exact .inl (.inr ⟨t, [], rfl, hk, by simp⟩)
    | cons u rest =>
      by_cases hu : u.kind = .serves
      · exact .inr ⟨[t], u, ⟨rest, finish⟩, rfl, .inr ⟨t, rfl, hk⟩, hu⟩
      · exact .inl (.inr ⟨t, u :: rest, rfl, hk, by simpa using hu⟩)
  · exact .inr ⟨[], t, ⟨rest, finish⟩, rfl, .inl rfl, hk⟩

/-- Behind a method, diners are read where they are laid out. -/
theorem serves_eq_ok_iff (hs : s.Proper) (hend : EndsMethod s.ahead) :
    serves s = .ok (v, s') ↔ ∃ ts, s = s'.push ts ∧ Optional Serves none ts v ∧
      (ts = [] → ServesNobody s'.ahead) ∧ (ts ≠ [] → AtBreak s'.ahead) := by
  constructor
  · intro h
    rcases servesNobody_or_exists_push hend with hnobody | ⟨blank, sv, s₁, rfl, hblank, hsv⟩
    · rw [serves_of_servesNobody hnobody hs.finish] at h
      cases h
      exact ⟨[], rfl, .missing, fun _ => hnobody, by simp⟩
    · rw [serves_push_append hblank hsv, serves_push_eq_ok_iff hs.of_push hsv] at h
      obtain ⟨count, stop, n, rfl, hcount, hn, hstop, rfl, hbreak⟩ := h
      exact ⟨blank ++ [sv, count, stop], by simp, .here (.intro hblank hsv hcount hn hstop),
        by simp, fun _ => hbreak⟩
  · rintro ⟨ts, rfl, hserves, hnobody, hbreak⟩
    cases hserves with
    | missing => exact serves_of_servesNobody (hnobody rfl) hs.finish
    | here hserves =>
      cases hserves with
      | @intro blank sv count stop n hblank hsv hcount hn hstop =>
        have hpush : s'.push (blank ++ [sv, count, stop]) =
            (s'.push [count, stop]).push (blank ++ [sv]) := by simp
        rw [hpush] at hs ⊢
        rw [serves_push_append hblank hsv, serves_push_eq_ok_iff hs.of_push hsv]
        exact ⟨count, stop, n, rfl, hcount, hn, hstop, rfl, hbreak (by simp)⟩

end

end Grammar

end Cookbook
