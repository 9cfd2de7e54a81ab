import Cookbook.Proofs.Token.Words
import Mathlib.Algebra.Ring.Nat

/-!
# Cookbook.Proofs.Token.Munch

Scanning cuts a text into its longest lexemes, and there is one way to do so
(`scan_eq_iff_munch`).

`Munch` says which tokens a text is cut into without scanning it: blanks and
lexemes make up the text, and each token is what its bytes and those around it
make it (`Token.Munched`).  Where a token stands is told by the text before it
alone (`Location.behind`).  That scanned tokens are so is read off the cursor at
which each of them was taken (`exists_cursor_of_toList_stream`); conversely each
token of such a list is the one that is taken next
(`toList_stream_of_munch`).

What is counted on the way, lines, columns and the line feeds of a break, stays within
signed 32-bit numbers in a text of fewer than `2 ^ 31 - 1` bytes
(`Location.fits_behind`), and in a longer one it need not (`Location.not_fits_behind`).
-/

namespace Cookbook

open Text

/-! ## Places -/

namespace Location

/-- The place behind a text: a line for every line feed, and a column for every
byte behind the last of them. -/
def behind (t : Text) : Location where
  line := 1 + t.count lineFeed
  col := (t.reverse.takeWhile (· ≠ lineFeed)).length

/-- Counting byte by byte comes to the place behind a text. -/
theorem past_start (t : Text) : start.past t = behind t := by
  induction t using List.reverseRecOn with
  | nil => rfl
  | append_singleton t b ih =>
    rw [past_append, ih]
    by_cases hb : b = lineFeed
    · simp [past, step, behind, hb, Int.add_assoc]
    · simp [past, step, behind, hb]

theorem past_behind (s t : Text) : (behind s).past t = behind (s ++ t) := by
  rw [← past_start, ← past_start, past_append]

/-- Whether a place is told by signed 32-bit numbers. -/
structure Fits (l : Location) : Prop where
  line : Int32.minValue.toInt ≤ l.line ∧ l.line ≤ Int32.maxValue.toInt
  col : Int32.minValue.toInt ≤ l.col ∧ l.col ≤ Int32.maxValue.toInt

/-- The line behind a text is one more than it has bytes at the most. -/
theorem fits_behind {t : Text} (h : t.length < 2 ^ 31 - 1) : (behind t).Fits := by
  have hline : t.count lineFeed ≤ t.length := List.count_le_length
  have hcol : (t.reverse.takeWhile (· ≠ lineFeed)).length ≤ t.length := by
    rw [← t.length_reverse]
    exact (List.takeWhile_sublist _).length_le
  have hmin : Int32.minValue.toInt = -2 ^ 31 := rfl
  have hmax : Int32.maxValue.toInt = 2 ^ 31 - 1 := rfl
  constructor <;> simp only [behind] <;> omega

/-- No larger bound would do: the line behind as many line feeds does not fit. -/
theorem not_fits_behind {n : Nat} (h : 2 ^ 31 - 1 ≤ n) :
    ¬ (behind (List.replicate n lineFeed)).Fits := by
  rintro ⟨⟨-, hline⟩, -⟩
  have hmax : Int32.maxValue.toInt = 2 ^ 31 - 1 := rfl
  simp only [behind, List.count_replicate_self] at hline
  omega

end Location

/-! ## Longest lexemes -/

/-- The text that some tokens make up. -/
def Token.source (ts : List Token) : Text := ts.flatMap fun t => t.blanks ++ t.lexeme

@[simp] theorem Token.source_cons (t : Token) (ts : List Token) :
    source (t :: ts) = t.blanks ++ t.lexeme ++ source ts := rfl

theorem Token.source_singleton (t : Token) : source [t] = t.blanks ++ t.lexeme := by
  simp [source]

@[simp] theorem Token.source_append (ts us : List Token) :
    source (ts ++ us) = source ts ++ source us := by
  simp [source]

/-- A token lies within the text that it belongs to. -/
theorem Token.lexeme_sublist_source {t : Token} {ts : List Token} (h : t ∈ ts) :
    t.lexeme.Sublist (source ts) :=
  (List.sublist_append_right t.blanks t.lexeme).trans
    (List.sublist_flatten_of_mem (List.mem_map_of_mem h))

/-- A run of word bytes that cannot be prolonged to either side. -/
structure Text.IsRun (before w after : Text) : Prop where
  isWordy : w.IsWordy
  left : ∀ b, before.getLast? = some b → isWordByte b = false
  right : ∀ b, after.head? = some b → isWordByte b = false

/-- The kind of a run of word bytes: digits are the number they denote, if it
is below `2 ^ 63`. -/
inductive Token.Kind.Suits : Text → Token.Kind → Prop where
  | number {w : Text} {n : Int64} (hdigits : w.all isDigit) (hn : n.toInt = Decimal.value w)
    (hsmall : Decimal.value w < 2 ^ 63) : Suits w (.number n)
  | unexpected {w : Text} (hdigits : w.all isDigit) (hlarge : 2 ^ 63 ≤ Decimal.value w) :
    Suits w .unexpected
  | ingredients : Suits "Ingredients" .ingredients
  | method : Suits "Method" .method
  | serves : Suits "Serves" .serves
  | word {w : Text} (hdigits : w.all isDigit = false)
    (hfree : w ∉ [ofString "Ingredients", "Method", "Serves"]) : Suits w .word

/-- A token of a text, with the text before its blanks and the text behind it. -/
structure Token.Munched (before : Text) (t : Token) (after : Text) : Prop where
  blanks : ∀ b ∈ t.blanks, isBlank b
  location : t.location = .behind (before ++ t.blanks)
  finish : t.kind = .finish ↔ t.lexeme = []
  /-- A full stop is a token of its own. -/
  period : fullStop ∈ t.lexeme ∨ t.kind = .period → t.lexeme = [fullStop] ∧ t.kind = .period
  /-- A line feed belongs to a break, and a break is white space between two
  line feeds, or a single one. -/
  lineEnd : lineFeed ∈ t.lexeme ∨ t.isLineEnd → t.isLineEnd ∧ t.lexeme.IsGap ∧
    (t.kind = .blankLine ↔ 2 ≤ t.lexeme.count lineFeed)
  /-- Everything else is a longest run of word bytes. -/
  word : t.kind ≠ .finish → t.kind ≠ .period → t.isLineEnd = false →
    IsRun (before ++ t.blanks) t.lexeme after ∧ t.kind.Suits t.lexeme

/-- The tokens that a text is cut into. -/
structure Munch (text : Text) (ts : List Token) : Prop where
  source : Token.source ts = text
  /-- The end of the text comes last, and only there. -/
  finish : ∃ ahead last, ts = ahead ++ [last] ∧ last.kind = .finish ∧
    ∀ t ∈ ahead, t.kind ≠ .finish
  each : ∀ front t back, ts = front ++ t :: back →
    t.Munched (Token.source front) (Token.source back)
  /-- No break follows another. -/
  apart : ∀ front t u back, ts = front ++ t :: u :: back → t.isLineEnd → u.isLineEnd = false

/-! ## Kinds -/

theorem Decimal.int64?_eq_none {n : Nat} (h : 2 ^ 63 ≤ n) : int64? n = none := by
  have hmax : Int64.maxValue.toInt = 2 ^ 63 - 1 := rfl
  rw [int64?, if_neg]
  omega

theorem Decimal.exists_int64?_eq_some {n : Nat} (h : n < 2 ^ 63) :
    ∃ m : Int64, int64? n = some m ∧ m.toInt = n := by
  have hm : (Int64.ofInt n).toInt = n := Int64.toInt_ofInt_of_le (by omega) (by omega)
  exact ⟨_, int64?_eq_some_iff.2 hm, hm⟩

namespace Token.Kind

/-- A run of word bytes has one kind, the one that it is scanned as. -/
theorem suits_iff {w : Text} {k : Kind} (h : w.IsWordy) : k.Suits w ↔ k = ofLexeme w := by
  rw [ofLexeme_of_isWordy h]
  constructor
  · intro hk
    cases hk with
    | number hdigits hn hsmall =>
      rw [if_pos hdigits, ofDigits, ← hn, Decimal.int64?_toInt]
    | unexpected hdigits hlarge => rw [if_pos hdigits, ofDigits, Decimal.int64?_eq_none hlarge]
    | ingredients | method | serves => decide
    | word hdigits hfree =>
      simp only [List.mem_cons, List.not_mem_nil, or_false, not_or] at hfree
      rw [hdigits, ofWord, if_neg hfree.1, if_neg hfree.2.1, if_neg hfree.2.2]
      rfl
  · rintro rfl
    cases hdigits : w.all isDigit with
    | true =>
      rw [if_pos rfl, ofDigits]
      by_cases hsmall : Decimal.value w < 2 ^ 63
      · obtain ⟨n, hn, hvalue⟩ := Decimal.exists_int64?_eq_some hsmall
        rw [hn]
        exact .number hdigits hvalue hsmall
      · rw [Decimal.int64?_eq_none (Nat.le_of_not_lt hsmall)]
        exact .unexpected hdigits (Nat.le_of_not_lt hsmall)
    | false =>
      rw [if_neg (by simp), ofWord]
      split
      · next hw => exact hw ▸ .ingredients
      · next hingredients =>
        split
        · next hw => exact hw ▸ .method
        · next hmethod =>
          split
          · next hw => exact hw ▸ .serves
          · next hserves => exact .word hdigits (by simp [hingredients, hmethod, hserves])

/-- A gap is a blank line if it holds more than one line feed. -/
theorem ofLexeme_of_isGap {l : Text} (h : l.IsGap) :
    ofLexeme l = if 2 ≤ l.count lineFeed then .blankLine else .lineBreak := by
  cases l with
  | nil => simp [IsGap] at h
  | cons b l =>
    have hb : b = lineFeed := by simpa using h.1
    rw [ofLexeme, if_pos hb, hb, List.count_cons_self]
    simp [List.one_le_count_iff]

end Token.Kind

/-! ## Taking tokens -/

namespace Token

/-- A run of word bytes that is a lexeme cannot be prolonged. -/
theorem isWordByte_head_of_lexemeOf {l r : Text} (hl : l.IsWordy) (h : lexemeOf (l ++ r) = l)
    {b : UInt8} (hb : r.head? = some b) : isWordByte b = false := by
  cases l with
  | nil => exact absurd rfl hl.1
  | cons c l =>
    have hc := hl.2 c (by simp)
    cases r with
    | nil => simp at hb
    | cons d r =>
      obtain rfl : d = b := by simpa using hb
      rw [List.cons_append, lexemeOf, if_neg (ne_lineFeed_of_isWordByte hc),
        if_neg (ne_fullStop_of_isWordByte hc), List.cons.injEq,
        List.takeWhile_append_of_pos fun e he => hl.2 e (by simp [he])] at h
      cases hd : isWordByte d with
      | false => rfl
      | true => simp [hd] at h

end Token

namespace Cursor

variable {c : Cursor} {g l r : Text}

/-- Behind blanks alone the text ends. -/
theorem toList_stream_of_blank (h : ∀ b ∈ c.rest, isBlank b) :
    c.stream.toList =
      [{ kind := .finish, lexeme := [], location := c.location.past c.rest,
          blanks := c.rest }] := by
  have htake : c.rest.takeWhile isBlank = c.rest := List.takeWhile_eq_self_iff.2 h
  have hdrop : c.rest.dropWhile isBlank = [] := List.dropWhile_eq_nil_iff.2 h
  have hnext : c.next.1 =
      { kind := .finish, lexeme := [], location := c.location.past c.rest, blanks := c.rest } := by
    simp only [next, htake, hdrop, Token.lexemeOf, Token.Kind.ofLexeme]
  rw [stream, if_pos (by rw [hnext]), TokenStream.toList, hnext]
  rfl

/-- Behind blanks a lexeme that ends there is taken. -/
theorem toList_stream_of_lexeme (hrest : c.rest = g ++ (l ++ r)) (hg : ∀ b ∈ g, isBlank b)
    (hl : l.IsLexeme) (hend : Token.lexemeOf (l ++ r) = l) :
    c.stream.toList =
      { kind := .ofLexeme l, lexeme := l, location := c.location.past g, blanks := g } ::
        ({ rest := r, location := c.location.past (g ++ l) } : Cursor).stream.toList := by
  have hstop : ∀ b, (l ++ r).head? = some b → isBlank b = false := by
    intro b hb
    refine hl.isBlank_head ?_
    rwa [List.head?_append_of_ne_nil _ hl.ne_nil] at hb
  have htake : c.rest.takeWhile isBlank = g := by
    rw [hrest, List.takeWhile_append_of_pos hg]
    cases hlr : l ++ r with
    | nil => simp
    | cons b t => simp [hstop b (by rw [hlr]; rfl)]
  have hdrop : c.rest.dropWhile isBlank = l ++ r := by
    rw [hrest, List.dropWhile_append_of_pos hg]
    cases hlr : l ++ r with
    | nil => simp
    | cons b t => simp [hstop b (by rw [hlr]; rfl)]
  have hnext : c.next =
      ({ kind := .ofLexeme l, lexeme := l, location := c.location.past g, blanks := g },
        { rest := r, location := c.location.past (g ++ l) }) := by
    simp only [next, htake, hdrop, hend, List.drop_left, Location.past_append]
  have hkind : c.next.1.kind ≠ .finish := by
    rw [hnext, ne_eq, Token.Kind.ofLexeme_eq_finish_iff]
    exact hl.ne_nil
  rw [stream, if_neg hkind, hnext]
  rfl

/-- Nothing is lost on the way to the end of a text. -/
theorem source_toList_stream (c : Cursor) : Token.source c.stream.toList = c.rest := by
  obtain ⟨t, l⟩ := c
  induction t using lexeme_induction generalizing l with
  | blank t hblank =>
    rw [toList_stream_of_blank hblank]
    simp [Token.source]
  | lexeme g w r hg hw hend ih =>
    rw [toList_stream_of_lexeme rfl hg hw hend, Token.source_cons, ih, List.append_assoc]

/-- What is known of the token that is taken at a cursor. -/
theorem of_toList_stream_eq_cons {t : Token} {back : List Token}
    (h : c.stream.toList = t :: back) :
    (∀ b ∈ t.blanks, isBlank b) ∧ t.location = c.location.past t.blanks ∧
      t.kind = .ofLexeme t.lexeme ∧
      (t.lexeme = [] ∧ back = [] ∨
        t.lexeme.IsLexeme ∧ Token.lexemeOf (t.lexeme ++ Token.source back) = t.lexeme ∧
          back ≠ []) := by
  rcases blanks_or_lexeme c.rest with hblank | ⟨g, l, r, hrest, hg, hl, hend⟩
  · rw [toList_stream_of_blank hblank, List.cons.injEq] at h
    obtain ⟨rfl, rfl⟩ := h
    exact ⟨hblank, rfl, rfl, .inl ⟨rfl, rfl⟩⟩
  · rw [toList_stream_of_lexeme hrest hg hl hend, List.cons.injEq] at h
    obtain ⟨rfl, rfl⟩ := h
    refine ⟨hg, rfl, rfl, .inr ⟨hl, ?_, by simp [TokenStream.toList]⟩⟩
    rw [source_toList_stream]
    exact hend

/-- Every token of a text is taken at a cursor, which stands behind all tokens
before it. -/
theorem exists_cursor_of_toList_stream {front back : List Token} {t : Token}
    (h : c.stream.toList = front ++ t :: back) :
    ∃ d : Cursor, d.stream.toList = t :: back ∧
      d.location = c.location.past (Token.source front) := by
  induction front generalizing c with
  | nil => exact ⟨c, h, rfl⟩
  | cons u front ih =>
    rcases blanks_or_lexeme c.rest with hblank | ⟨g, l, r, hrest, hg, hl, hend⟩
    · rw [toList_stream_of_blank hblank] at h
      simp at h
    · rw [toList_stream_of_lexeme hrest hg hl hend, List.cons_append, List.cons.injEq] at h
      obtain ⟨rfl, h⟩ := h
      obtain ⟨d, hd, hlocation⟩ := ih h
      refine ⟨d, hd, ?_⟩
      rw [hlocation, Token.source_cons, Location.past_append _ (g ++ l)]

/-- The kind of every token, the one that ends the text included, is read off its
lexeme. -/
theorem kind_of_mem_toList_stream {t : Token} (h : t ∈ c.stream.toList) :
    t.kind = Token.Kind.ofLexeme t.lexeme := by
  obtain ⟨front, back, hsplit⟩ := List.append_of_mem h
  obtain ⟨d, hd, -⟩ := exists_cursor_of_toList_stream hsplit
  exact (of_toList_stream_eq_cons hd).2.2.1

end Cursor

theorem kind_of_mem_scan {book : Text} {t : Token} (h : t ∈ Token.scan book) :
    t.kind = Token.Kind.ofLexeme t.lexeme :=
  Cursor.kind_of_mem_toList_stream h

/-! ## Scanned tokens are longest lexemes -/

namespace Token

variable {t u : Token} {before after : Text} {front back : List Token}

/-- What a token with a lexeme is. -/
theorem munched_of_isLexeme (hblanks : ∀ b ∈ t.blanks, isBlank b)
    (hlocation : t.location = .behind (before ++ t.blanks)) (hkind : t.kind = .ofLexeme t.lexeme)
    (hl : t.lexeme.IsLexeme)
    (hrun : t.lexeme.IsWordy → IsRun (before ++ t.blanks) t.lexeme after) :
    t.Munched before after := by
  have hperiod : t.kind = .period ↔ t.lexeme = [fullStop] := by
    rw [hkind, Kind.ofLexeme_eq_period_iff hl]
  have hgap : t.isLineEnd ↔ t.lexeme.IsGap := by
    rw [← isLineEnd_ofLexeme_iff hl]
    simp only [isLineEnd, kind_ofLexeme, hkind]
  refine ⟨hblanks, hlocation, ?_, ?_, ?_, ?_⟩
  · rw [hkind, Kind.ofLexeme_eq_finish_iff]
  · rintro (hmem | hk)
    · rcases hl with hw | hstop | hg
      · exact absurd rfl (ne_fullStop_of_isWordByte (hw.2 _ hmem))
      · exact ⟨hstop, hperiod.2 hstop⟩
      · exact absurd (hg.2.2 _ hmem) (by decide)
    · exact ⟨hperiod.1 hk, hk⟩
  · intro hfeed
    have hg : t.lexeme.IsGap := by
      rcases hfeed with hmem | hend
      · rcases hl with hw | hstop | hg
        · exact absurd rfl (ne_lineFeed_of_isWordByte (hw.2 _ hmem))
        · rw [hstop, List.mem_singleton] at hmem
          exact absurd hmem (by decide)
        · exact hg
      · exact hgap.1 hend
    refine ⟨hgap.2 hg, hg, ?_⟩
    rw [hkind, Kind.ofLexeme_of_isGap hg]
    split <;> simp [*]
  · intro _ hk hend
    rcases hl with hw | hstop | hg
    · exact ⟨hrun hw, (Kind.suits_iff hw).2 hkind⟩
    · exact absurd (hperiod.2 hstop) hk
    · rw [hgap.2 hg] at hend
      cases hend

/-- What the token at the end of a text is. -/
theorem munched_of_finish (hblanks : ∀ b ∈ t.blanks, isBlank b)
    (hlocation : t.location = .behind (before ++ t.blanks)) (hkind : t.kind = .finish)
    (hlexeme : t.lexeme = []) : t.Munched before after := by
  refine ⟨hblanks, hlocation, by simp [hkind, hlexeme], ?_, ?_, ?_⟩
  · simp [hkind, hlexeme]
  · simp [hkind, hlexeme, isLineEnd]
  · simp [hkind]

end Token

namespace Cursor

variable {c : Cursor} {t : Token} {front back : List Token}

/-- A word is not preceded by a word byte: the token before it would have taken
the word along. -/
theorem isWordByte_getLast?_of_toList_stream (h : c.stream.toList = front ++ t :: back)
    (hw : t.lexeme.IsWordy) {b : UInt8}
    (hb : (Token.source front ++ t.blanks).getLast? = some b) : isWordByte b = false := by
  obtain ⟨d, hd, -⟩ := exists_cursor_of_toList_stream h
  have hblanks := (of_toList_stream_eq_cons hd).1
  cases hne : t.blanks with
  | cons e es =>
    rw [hne, List.getLast?_append_of_ne_nil _ (by simp)] at hb
    cases hwb : isWordByte b with
    | false => rfl
    | true =>
      have hblank := hblanks b (hne ▸ List.mem_of_getLast? hb)
      rw [isBlank_of_isWordByte hwb] at hblank
      cases hblank
  | nil =>
    rw [hne, List.append_nil] at hb
    induction front using List.reverseRecOn with
    | nil => simp [Token.source] at hb
    | append_singleton front u _ =>
      rw [List.append_assoc, List.singleton_append] at h
      obtain ⟨d', hd', -⟩ := exists_cursor_of_toList_stream h
      obtain ⟨-, -, -, ⟨-, hnil⟩ | ⟨hl, hend, -⟩⟩ := of_toList_stream_eq_cons hd'
      · cases hnil
      · rw [Token.source_append, Token.source_singleton, ← List.append_assoc,
          List.getLast?_append_of_ne_nil _ hl.ne_nil] at hb
        rcases hl with huw | hstop | hg
        · obtain ⟨w, ws, hcons⟩ := List.exists_cons_of_ne_nil hw.1
          have hhead : (Token.source (t :: back)).head? = some w := by
            rw [Token.source_cons, hne, hcons]
            rfl
          have hword := Token.isWordByte_head_of_lexemeOf huw hend hhead
          rw [hw.2 w (by simp [hcons])] at hword
          cases hword
        · rw [hstop, List.getLast?_singleton, Option.some.injEq] at hb
          rw [← hb]
          decide
        · rw [hg.2.1, Option.some.injEq] at hb
          rw [← hb]
          decide

/-- A token of a text is a longest lexeme. -/
theorem munched_of_toList_stream {text : Text}
    (h : ({ rest := text } : Cursor).stream.toList = front ++ t :: back) :
    t.Munched (Token.source front) (Token.source back) := by
  obtain ⟨d, hd, hlocation⟩ := exists_cursor_of_toList_stream h
  obtain ⟨hblanks, hplace, hkind, hcases⟩ := of_toList_stream_eq_cons hd
  have hbehind : t.location = .behind (Token.source front ++ t.blanks) := by
    rw [hplace, hlocation, Location.past_start, Location.past_behind]
  rcases hcases with ⟨hlexeme, -⟩ | ⟨hl, hend, -⟩
  · refine Token.munched_of_finish hblanks hbehind ?_ hlexeme
    rw [hkind, hlexeme]
    rfl
  · exact Token.munched_of_isLexeme hblanks hbehind hkind hl fun hw =>
      ⟨hw, fun _ => isWordByte_getLast?_of_toList_stream h hw,
        fun _ => Token.isWordByte_head_of_lexemeOf hw hend⟩

theorem isLineEnd_of_toList_stream {text : Text} {u : Token}
    (h : ({ rest := text } : Cursor).stream.toList = front ++ t :: u :: back)
    (ht : t.isLineEnd) : u.isLineEnd = false := by
  have hgap := ((munched_of_toList_stream h).lineEnd (.inr ht)).2.1
  obtain ⟨d, hd, -⟩ := exists_cursor_of_toList_stream h
  obtain ⟨-, -, -, ⟨-, hnil⟩ | ⟨-, hend, -⟩⟩ := of_toList_stream_eq_cons hd
  · cases hnil
  · rw [List.append_cons] at h
    have hu := munched_of_toList_stream h
    cases huend : u.isLineEnd with
    | false => rfl
    | true =>
      have hfeed := Token.lineFeed_not_mem_of_isGap hgap hend
      rw [Token.source_cons, List.append_assoc] at hfeed
      exact absurd (Token.lineFeed_mem_takeWhile hu.blanks (hu.lineEnd (.inr huend)).2.1 _) hfeed

/-- The tokens of a text cut it into its longest lexemes. -/
theorem munch_toList_stream (text : Text) :
    Munch text ({ rest := text } : Cursor).stream.toList := by
  refine ⟨source_toList_stream _, ⟨_, _, rfl, ?_, fun t ht => ?_⟩,
    fun _ _ _ => munched_of_toList_stream, fun _ _ _ _ => isLineEnd_of_toList_stream⟩
  · obtain ⟨d, hd, -⟩ := exists_cursor_of_toList_stream (c := { rest := text }) rfl
    obtain ⟨-, -, hkind, ⟨hlexeme, -⟩ | ⟨-, -, hne⟩⟩ := of_toList_stream_eq_cons hd
    · rw [hkind, hlexeme]
      rfl
    · exact absurd rfl hne
  · obtain ⟨front, back, hsplit⟩ := List.append_of_mem ht
    have hlist : ({ rest := text } : Cursor).stream.toList =
        front ++ t :: (back ++ [({ rest := text } : Cursor).stream.finish]) := by
      rw [TokenStream.toList, hsplit, List.append_assoc, List.cons_append]
    obtain ⟨d, hd, -⟩ := exists_cursor_of_toList_stream hlist
    obtain ⟨-, -, hkind, ⟨-, hnil⟩ | ⟨hl, -, -⟩⟩ := of_toList_stream_eq_cons hd
    · simp at hnil
    · rw [hkind, ne_eq, Token.Kind.ofLexeme_eq_finish_iff]
      exact hl.ne_nil

end Cursor

/-! ## Longest lexemes are scanned -/

namespace Munch

variable {text : Text} {front back : List Token} {t : Token}

theorem kind_eq_finish_iff (h : Munch text (front ++ t :: back)) :
    t.kind = .finish ↔ back = [] := by
  obtain ⟨ahead, last, hlist, hlast, hahead⟩ := h.finish
  cases back using List.reverseRecOn with
  | nil =>
    obtain ⟨-, htl⟩ := List.append_inj' hlist rfl
    rw [List.cons.injEq] at htl
    simp [htl.1, hlast]
  | append_singleton back u =>
    rw [← List.cons_append, ← List.append_assoc] at hlist
    obtain ⟨hfront, -⟩ := List.append_inj' hlist rfl
    simpa using hahead t (by simp [← hfront])

/-- Behind a break the white space holds no line feed, because what follows is
no break. -/
theorem lineFeed_not_mem (h : Munch text (front ++ t :: back)) (ht : t.isLineEnd) :
    lineFeed ∉ (Token.source back).takeWhile isWhite := by
  cases back with
  | nil => simp [Token.source]
  | cons u back =>
    have hu := h.each (front ++ [t]) u back (by simp)
    have hend := h.apart front t u back rfl ht
    have hblank : lineFeed ∉ u.blanks := fun hmem => absurd (hu.blanks _ hmem) (by decide)
    have hwhite : ∀ b ∈ u.blanks, isWhite b := fun b hb => isWhite_of_isBlank (hu.blanks b hb)
    rw [Token.source_cons, List.append_assoc, List.takeWhile_append_of_pos hwhite, List.mem_append]
    rintro (hmem | hmem)
    · exact hblank hmem
    · rw [← List.singleton_append, ← List.append_assoc] at h
      by_cases hfinish : u.kind = .finish
      · rw [hu.finish.1 hfinish, h.kind_eq_finish_iff.1 hfinish] at hmem
        simp [Token.source] at hmem
      · have hstop : ∃ b w, u.lexeme = b :: w ∧ isWhite b = false := by
          by_cases hperiod : u.kind = .period
          · exact ⟨fullStop, [], (hu.period (.inr hperiod)).1, by decide⟩
          · have hw := (hu.word hfinish hperiod hend).1.isWordy
            obtain ⟨b, w, hcons⟩ := List.exists_cons_of_ne_nil hw.1
            exact ⟨b, w, hcons, isWhite_of_isWordByte (hw.2 b (by simp [hcons]))⟩
        obtain ⟨b, w, hcons, hb⟩ := hstop
        simp [hcons, hb] at hmem

/-- A token is the lexeme that scanning takes there. -/
theorem isLexeme (h : Munch text (front ++ t :: back)) (hfinish : t.kind ≠ .finish) :
    t.lexeme.IsLexeme ∧ Token.lexemeOf (t.lexeme ++ Token.source back) = t.lexeme ∧
      t.kind = .ofLexeme t.lexeme := by
  have ht := h.each front t back rfl
  by_cases hperiod : t.kind = .period
  · obtain ⟨hlexeme, -⟩ := ht.period (.inr hperiod)
    rw [hlexeme, hperiod]
    exact ⟨.inr (.inl rfl), Token.lexemeOf_fullStop _, rfl⟩
  cases hend : t.isLineEnd with
  | true =>
    obtain ⟨-, hgap, hkind⟩ := ht.lineEnd (.inr hend)
    refine ⟨.inr (.inr hgap), Token.lexemeOf_append_of_isGap hgap (h.lineFeed_not_mem hend), ?_⟩
    rw [Token.Kind.ofLexeme_of_isGap hgap]
    simp only [← hkind]
    split
    · assumption
    · unfold Token.isLineEnd at hend
      grind
  | false =>
    obtain ⟨hrun, hsuits⟩ := ht.word hfinish hperiod hend
    exact ⟨.inl hrun.isWordy, Token.lexemeOf_append_of_isWordy hrun.isWordy hrun.right,
      (Token.Kind.suits_iff hrun.isWordy).1 hsuits⟩

/-- The tokens behind others are those that are taken there. -/
theorem toList_stream_of_munch (h : Munch text (front ++ t :: back)) :
    ({ rest := Token.source (t :: back), location := .behind (Token.source front) } :
      Cursor).stream.toList = t :: back := by
  have ht := h.each front t back rfl
  induction back generalizing front t with
  | nil =>
    have hkind : t.kind = .finish := h.kind_eq_finish_iff.2 rfl
    have hlexeme := ht.finish.1 hkind
    have hrest : Token.source [t] = t.blanks := by
      rw [Token.source_singleton, hlexeme, List.append_nil]
    rw [hrest, Cursor.toList_stream_of_blank ht.blanks, List.singleton_inj]
    simp only [Location.past_behind, ← ht.location, ← hkind, ← hlexeme]
  | cons u back ih =>
    have hkind : t.kind ≠ .finish := by simp [h.kind_eq_finish_iff]
    obtain ⟨hl, hend, hof⟩ := h.isLexeme hkind
    have hrest : Token.source (t :: u :: back) =
        t.blanks ++ (t.lexeme ++ Token.source (u :: back)) := by
      rw [Token.source_cons, List.append_assoc]
    rw [List.append_cons] at h
    have htail := ih h (h.each _ u back rfl)
    rw [Token.source_append, Token.source_singleton] at htail
    rw [Cursor.toList_stream_of_lexeme hrest ht.blanks hl hend, List.cons.injEq]
    simp only [Location.past_behind, htail, ← ht.location, ← hof, and_self]

end Munch

/-! ## Reading to the end -/

/-- The tokens that a reader gives one after the other, `n` of them. -/
def Reader.tokens (r : Reader) : Nat → List Token
  | 0 => []
  | n + 1 => r.next.1 :: r.next.2.tokens n

/-- A reader gives the tokens ahead of its cursor up to the end of the text. -/
theorem Reader.tokens_length_toList_stream (r : Reader) :
    r.tokens r.cursor.stream.toList.length = r.cursor.stream.toList := by
  rw [Cursor.stream]
  split
  · rfl
  · have ih := tokens_length_toList_stream r.next.2
    exact congrArg (r.cursor.next.1 :: ·) ih
termination_by r.cursor.rest.length
decreasing_by exact Cursor.length_rest_next_lt ‹_›

/-- The tokens of a text without NUL bytes, which a reader gives one after the
other up to the end, are the only ones that cut it into its longest lexemes.  Below
`2 ^ 31 - 1` bytes neither a place on the way nor the line feeds of a token need more
than the 32 bits they are counted with. -/
theorem scan_eq_iff_munch {text : Text} (h0 : (0 : UInt8) ∉ text)
    (hlength : text.length < 2 ^ 31 - 1) :
    (Reader.ofText text).tokens (Token.scan text).length = Token.scan text ∧
      (∀ ts, ts = Token.scan text ↔ Munch text ts) ∧
      (∀ front, front <+: text → (Location.start.past front).Fits) ∧
      ∀ t ∈ Token.scan text, t.lexeme.count lineFeed ≤ Int32.maxValue.toInt := by
  have hstart : Cursor.start text = { rest := text } := by
    rw [Cursor.start, untilNul_eq_self fun b hb hz => h0 (hz ▸ hb)]
  have hscan : Token.scan text = ({ rest := text } : Cursor).stream.toList := by
    rw [Token.scan, TokenStream.ofText, hstart]
  have hsource : Token.source (Token.scan text) = text := by
    rw [hscan, Cursor.source_toList_stream]
  refine ⟨Reader.tokens_length_toList_stream (Reader.ofText text),
    fun ts => ⟨?_, fun h => ?_⟩, fun front hfront => ?_, fun t ht => ?_⟩
  · rintro rfl
    rw [hscan]
    exact Cursor.munch_toList_stream text
  · obtain ⟨t, back, rfl⟩ : ∃ t back, ts = t :: back := by
      obtain ⟨ahead, last, rfl, -⟩ := h.finish
      exact List.exists_cons_of_ne_nil (by simp)
    have htaken : ({ rest := Token.source (t :: back), location := .behind (Token.source []) } :
        Cursor).stream.toList = t :: back := Munch.toList_stream_of_munch h
    rw [h.source] at htaken
    rw [hscan, ← htaken]
    rfl
  · rw [Location.past_start]
    exact Location.fits_behind (Nat.lt_of_le_of_lt hfront.length_le hlength)
  · have hmax : Int32.maxValue.toInt = 2 ^ 31 - 1 := rfl
    have hcount : t.lexeme.count lineFeed ≤ t.lexeme.length := List.count_le_length
    have hle : t.lexeme.length ≤ text.length := by
      rw [← hsource]
      exact (Token.lexeme_sublist_source ht).length_le
    omega

/-- A text with blanks in a break, a number with leading zeros, one that is too
large, one that runs into a word, full stops in a row and a heading. -/
theorem scan_eq_iff_munch_mixture :
    (0 : UInt8) ∉ ofString "007 \t.\n \n\r 9223372036854775808..Serves 3rd " ∧
      (ofString "007 \t.\n \n\r 9223372036854775808..Serves 3rd ").length < 2 ^ 31 - 1 ∧
      Munch "007 \t.\n \n\r 9223372036854775808..Serves 3rd "
        [{ kind := .number 7, lexeme := "007", location := { line := 1, col := 0 } },
          { kind := .period, lexeme := ".", location := { line := 1, col := 5 }, blanks := " \t" },
          { kind := .blankLine, lexeme := "\n \n", location := { line := 1, col := 6 } },
          { kind := .unexpected, lexeme := "9223372036854775808",
            location := { line := 3, col := 2 }, blanks := "\r " },
          { kind := .period, lexeme := ".", location := { line := 3, col := 21 } },
          { kind := .period, lexeme := ".", location := { line := 3, col := 22 } },
          { kind := .serves, lexeme := "Serves", location := { line := 3, col := 23 } },
          { kind := .word, lexeme := "3rd", location := { line := 3, col := 30 }, blanks := " " },
          { kind := .finish, lexeme := [], location := { line := 3, col := 34 }, blanks := " " }] :=
  ⟨by decide, by decide,
    ((scan_eq_iff_munch (by decide) (by decide)).2.1 _).1 (by decide +kernel)⟩

end Cookbook
