import Cookbook.Token.Cursor
import Mathlib.Data.List.Chain
import Mathlib.Data.List.TakeWhile

/-!
# Cookbook.Proofs.Token.Lexemes

Scanning, seen as a list of lexemes.

The blanks of a text and the places of its tokens have no say in which lexemes
it holds, so `lexemes` reads a bare text.  Three facts are proved here:

* what is scanned is well spelled (`spelled_lexemes`): every piece is a word, a
  period or a gap between lines, and no two gaps meet;
* a lexeme is found again in front of anything that does not prolong it
  (`lexemes_append`);
* well spelled lexemes with single spaces between them are scanned as
  themselves (`lexemes_spaced_append`).
-/

namespace Cookbook

open Text

/-! ## Shapes of lexemes -/

namespace Text

/-- The bytes of a word or a number, at least one. -/
def IsWordy (l : Text) : Prop := l ≠ [] ∧ ∀ b ∈ l, isWordByte b

/-- White space that begins and ends with a line feed. -/
def IsGap (l : Text) : Prop :=
  l.head? = some lineFeed ∧ l.getLast? = some lineFeed ∧ ∀ b ∈ l, isWhite b

/-- What one token may hold. -/
def IsLexeme (l : Text) : Prop := l.IsWordy ∨ l = [fullStop] ∨ l.IsGap

theorem isBlank_of_isWordByte {b : UInt8} (h : isWordByte b) : isBlank b = false := by
  simp only [isWordByte, isWhite, Bool.and_eq_true, Bool.not_eq_true', Bool.or_eq_false_iff] at h
  exact h.1.1

theorem ne_lineFeed_of_isWordByte {b : UInt8} (h : isWordByte b) : b ≠ lineFeed := by
  rintro rfl
  exact absurd h (by decide)

theorem ne_fullStop_of_isWordByte {b : UInt8} (h : isWordByte b) : b ≠ fullStop := by
  rintro rfl
  exact absurd h (by decide)

theorem isWhite_of_isWordByte {b : UInt8} (h : isWordByte b) : isWhite b = false := by
  simp only [isWordByte, Bool.and_eq_true, Bool.not_eq_true'] at h
  exact h.1

theorem IsLexeme.ne_nil {l : Text} (h : l.IsLexeme) : l ≠ [] := by
  rcases h with h | rfl | h
  · exact h.1
  · simp
  · rintro rfl
    simp [IsGap] at h

/-- No lexeme begins with a blank. -/
theorem IsLexeme.isBlank_head {l : Text} {b : UInt8} (h : l.IsLexeme) (hb : l.head? = some b) :
    isBlank b = false := by
  rcases h with h | rfl | h
  · exact isBlank_of_isWordByte (h.2 b (List.mem_of_mem_head? hb))
  · simp only [List.head?_cons, Option.some.injEq] at hb
    subst hb
    decide
  · have hlf : b = lineFeed := by simpa [hb] using h.1
    rw [hlf, isBlank_lineFeed]

theorem not_isGap_of_isWordy {l : Text} (h : l.IsWordy) : ¬ l.IsGap := by
  intro hg
  have hlf : lineFeed ∈ l := List.mem_of_mem_head? hg.1
  exact ne_lineFeed_of_isWordByte (h.2 _ hlf) rfl

end Text

/-! ## One lexeme in front of a text -/

namespace Token

/-- A word ends where the word bytes end. -/
theorem lexemeOf_append_of_isWordy {l r : Text} (hl : l.IsWordy)
    (hr : ∀ b, r.head? = some b → isWordByte b = false) : lexemeOf (l ++ r) = l := by
  obtain ⟨hne, hall⟩ := hl
  cases l with
  | nil => exact absurd rfl hne
  | cons b l =>
    have hb : isWordByte b := hall b (by simp)
    have hl : ∀ c ∈ l, isWordByte c := fun c hc => hall c (by simp [hc])
    have hr' : r.takeWhile isWordByte = [] := by
      cases r with
      | nil => rfl
      | cons c r => simp [hr c rfl]
    rw [List.cons_append, lexemeOf, if_neg (ne_lineFeed_of_isWordByte hb),
      if_neg (ne_fullStop_of_isWordByte hb), List.takeWhile_append_of_pos hl, hr', List.append_nil]

theorem lexemeOf_fullStop (r : Text) : lexemeOf (fullStop :: r) = [fullStop] := by
  rw [lexemeOf, if_neg (by decide), if_pos rfl]

/-- A gap ends with its last line feed. -/
theorem lexemeOf_append_of_isGap {l r : Text} (hl : l.IsGap)
    (hr : lineFeed ∉ r.takeWhile isWhite) : lexemeOf (l ++ r) = l := by
  obtain ⟨hhead, hlast, hwhite⟩ := hl
  cases l with
  | nil => simp at hhead
  | cons b l =>
    have hb : b = lineFeed := by simpa using hhead
    have hblank : ∀ c ∈ (r.takeWhile isWhite).reverse, isBlank c := by
      intro c hc
      rw [List.mem_reverse] at hc
      have hw : isWhite c := List.all_eq_true.1 List.all_takeWhile c hc
      have hne : c ≠ lineFeed := fun h => hr (h ▸ hc)
      simpa [isWhite, hne] using hw
    have hkeep : (b :: l).reverse.dropWhile isBlank = (b :: l).reverse := by
      have hhd : (b :: l).reverse.head? = some lineFeed := by rw [List.head?_reverse, hlast]
      cases h : (b :: l).reverse with
      | nil => rfl
      | cons c m =>
        rw [h, List.head?_cons, Option.some.injEq] at hhd
        rw [hhd, List.dropWhile_cons, if_neg (by decide)]
    rw [List.cons_append, lexemeOf, if_pos hb, breakRun, ← List.cons_append,
      List.takeWhile_append_of_pos hwhite, List.reverse_append,
      List.dropWhile_append_of_pos hblank, hkeep, List.reverse_reverse]

/-- A period or the end of the text prolongs no lexeme. -/
theorem lexemeOf_append_stop {l r : Text} (hl : l.IsLexeme)
    (hr : ∀ b, r.head? = some b → b = fullStop) : lexemeOf (l ++ r) = l := by
  rcases hl with hl | rfl | hl
  · exact lexemeOf_append_of_isWordy hl fun b hb => by rw [hr b hb]; decide
  · exact lexemeOf_fullStop r
  · refine lexemeOf_append_of_isGap hl ?_
    cases r with
    | nil => simp
    | cons b r =>
      have hw : isWhite fullStop = false := by decide
      simp [hr b rfl, hw]

/-- A space behind a lexeme does not prolong it, unless a gap meets another. -/
theorem lexemeOf_append_space {l m r : Text} (hl : l.IsLexeme) (hm : m.IsLexeme)
    (h : ¬ (l.IsGap ∧ m.IsGap)) : lexemeOf (l ++ space :: (m ++ r)) = l := by
  rcases hl with hl | rfl | hl
  · exact lexemeOf_append_of_isWordy hl fun b hb => by
      simp only [List.head?_cons, Option.some.injEq] at hb
      rw [← hb]
      decide
  · exact lexemeOf_fullStop _
  · refine lexemeOf_append_of_isGap hl ?_
    have hw : isWhite space = true := by decide
    cases m with
    | nil => exact absurd rfl hm.ne_nil
    | cons b m =>
      have hb : isWhite b = false := by
        rcases hm with hm | hm | hm
        · exact isWhite_of_isWordByte (hm.2 b (by simp))
        · rw [List.cons.injEq] at hm
          rw [hm.1]
          decide
        · exact absurd ⟨hl, hm⟩ h
      simp [hw, hb]
      decide

end Token

/-! ## The lexeme a text begins with -/

namespace Token

theorem isWhite_of_mem_breakRun {t : Text} {b : UInt8} (hb : b ∈ breakRun t) : isWhite b := by
  rw [breakRun, List.mem_reverse] at hb
  have hmem := (List.dropWhile_sublist isBlank).subset hb
  rw [List.mem_reverse] at hmem
  exact List.all_eq_true.1 List.all_takeWhile b hmem

/-- A break ends with a line feed. -/
theorem getLast?_breakRun {t : Text} (hne : breakRun t ≠ []) :
    (breakRun t).getLast? = some lineFeed := by
  cases hb : (breakRun t).getLast? with
  | none => exact absurd (List.getLast?_eq_none_iff.1 hb) hne
  | some b =>
    have hwhite : isWhite b := isWhite_of_mem_breakRun (List.mem_of_getLast? hb)
    have hdrop := List.head?_dropWhile_not isBlank (t.takeWhile isWhite).reverse
    rw [breakRun, List.getLast?_reverse] at hb
    simp only [hb] at hdrop
    simpa [isWhite, hdrop] using hwhite

theorem isGap_breakRun (r : Text) : (breakRun (lineFeed :: r)).IsGap := by
  have hne := breakRun_cons_ne_nil r
  refine ⟨?_, getLast?_breakRun hne, fun b hb => isWhite_of_mem_breakRun hb⟩
  obtain ⟨rest, hrest⟩ := exists_breakRun_append (lineFeed :: r)
  cases h : breakRun (lineFeed :: r) with
  | nil => exact absurd h hne
  | cons b l =>
    rw [h, List.cons_append, List.cons.injEq] at hrest
    rw [List.head?_cons, hrest.1]

/-- A text that begins with no blank begins with a lexeme. -/
theorem isLexeme_lexemeOf {b : UInt8} {t : Text} (hb : isBlank b = false) :
    (lexemeOf (b :: t)).IsLexeme := by
  rw [lexemeOf]
  split
  · next h =>
    subst h
    exact .inr (.inr (isGap_breakRun t))
  · next hlf =>
    split
    · next h => exact .inr (.inl (by rw [h]))
    · next hfs =>
      refine .inl ⟨by simp, fun c hc => ?_⟩
      rcases List.mem_cons.1 hc with rfl | hc
      · simp [isWordByte, isWhite, hb, hlf, hfs]
      · exact List.all_eq_true.1 List.all_takeWhile c hc

/-- Behind a gap the next white bytes hold no line feed. -/
theorem lineFeed_not_mem_of_breakRun_append {t r : Text} (h : breakRun t ++ r = t) :
    lineFeed ∉ r.takeWhile isWhite := by
  have hsplit : breakRun t ++ ((t.takeWhile isWhite).reverse.takeWhile isBlank).reverse =
      t.takeWhile isWhite := by
    rw [breakRun, ← List.reverse_append, List.takeWhile_append_dropWhile, List.reverse_reverse]
  have hwhite : ∀ b ∈ breakRun t, isWhite b := fun b hb =>
    List.all_eq_true.1 List.all_takeWhile b (hsplit ▸ List.mem_append_left _ hb)
  have htake : t.takeWhile isWhite = breakRun t ++ r.takeWhile isWhite := by
    rw [← List.takeWhile_append_of_pos hwhite, h]
  rw [htake] at hsplit
  rw [← List.append_cancel_left hsplit]
  intro hmem
  rw [List.mem_reverse] at hmem
  have hblank : isBlank lineFeed := List.all_eq_true.1 List.all_takeWhile _ hmem
  exact absurd hblank (by decide)

/-- A gap that ends there takes every line feed of the white space along. -/
theorem lineFeed_not_mem_of_isGap {l r : Text} (hl : l.IsGap) (h : lexemeOf (l ++ r) = l) :
    lineFeed ∉ r.takeWhile isWhite := by
  cases l with
  | nil => simp [IsGap] at hl
  | cons b l =>
    have hb : b = lineFeed := by simpa using hl.1
    rw [List.cons_append, lexemeOf, if_pos hb] at h
    exact lineFeed_not_mem_of_breakRun_append (by rw [h, List.cons_append])

theorem lineFeed_mem_takeWhile {g l : Text} (hg : ∀ b ∈ g, isBlank b) (hl : l.IsGap) (r : Text) :
    lineFeed ∈ (g ++ (l ++ r)).takeWhile isWhite := by
  have hgw : ∀ b ∈ g, isWhite b := fun b hb => isWhite_of_isBlank (hg b hb)
  have hmem : lineFeed ∈ l := List.mem_of_mem_head? hl.1
  rw [List.takeWhile_append_of_pos hgw, List.takeWhile_append_of_pos hl.2.2]
  simp [hmem]

end Token

/-! ## The lexemes of a text -/

/-- The lexemes that scanning a text gives, the end of the text left out. -/
def lexemes (t : Text) : List Text := ({ rest := t } : Cursor).stream.ahead.map (·.lexeme)

namespace Cursor

theorem lexeme_next (c : Cursor) : c.next.1.lexeme = Token.lexemeOf (c.rest.dropWhile isBlank) :=
  rfl

theorem kind_next (c : Cursor) : c.next.1.kind = Token.Kind.ofLexeme c.next.1.lexeme := rfl

/-- The lexemes ahead depend on the text behind the next blanks only. -/
theorem map_lexeme_stream_congr {c d : Cursor}
    (h : c.rest.dropWhile isBlank = d.rest.dropWhile isBlank) :
    c.stream.ahead.map (·.lexeme) = d.stream.ahead.map (·.lexeme) := by
  have hlex : c.next.1.lexeme = d.next.1.lexeme := by rw [lexeme_next, lexeme_next, h]
  have hkind : c.next.1.kind = d.next.1.kind := by rw [kind_next, kind_next, hlex]
  rw [stream.eq_1 c, stream.eq_1 d, ← hkind]
  split
  · rfl
  · have hrest : c.next.2.rest = d.next.2.rest := by simp only [next, h]
    have ih := map_lexeme_stream_congr (c := c.next.2) (d := d.next.2) (by rw [hrest])
    simp only [List.map_cons, hlex, ih]
termination_by c.rest.length
decreasing_by exact length_rest_next_lt ‹_›

/-- Where a text stands has no say in its lexemes. -/
theorem map_lexeme_stream (c : Cursor) : c.stream.ahead.map (·.lexeme) = lexemes c.rest :=
  map_lexeme_stream_congr rfl

/-- The kind of a scanned token is read off its lexeme. -/
theorem kind_of_mem_stream {c : Cursor} {t : Token} (h : t ∈ c.stream.ahead) :
    t.kind = Token.Kind.ofLexeme t.lexeme := by
  rw [stream] at h
  split at h
  · simp at h
  · rcases List.mem_cons.1 h with rfl | h
    · exact kind_next c
    · exact kind_of_mem_stream h
termination_by c.rest.length
decreasing_by exact length_rest_next_lt ‹_›

end Cursor

/-- Blanks in front of a text are not read. -/
theorem lexemes_blanks_append {g : Text} (hg : ∀ b ∈ g, isBlank b) (t : Text) :
    lexemes (g ++ t) = lexemes t :=
  Cursor.map_lexeme_stream_congr (List.dropWhile_append_of_pos hg)

theorem lexemes_nil : lexemes [] = [] := by
  have hk : ({ rest := [] } : Cursor).next.1.kind = .finish := rfl
  rw [lexemes, Cursor.stream, if_pos hk, List.map_nil]

theorem lexemes_space_cons (t : Text) : lexemes (space :: t) = lexemes t :=
  lexemes_blanks_append (g := [space]) (List.forall_mem_singleton.2 (by decide)) t

/-- A lexeme that nothing prolongs is scanned as itself. -/
theorem lexemes_append {l r : Text} (hl : l.IsLexeme) (h : Token.lexemeOf (l ++ r) = l) :
    lexemes (l ++ r) = l :: lexemes r := by
  have hdrop : (l ++ r).dropWhile isBlank = l ++ r := by
    cases l with
    | nil => exact absurd rfl hl.ne_nil
    | cons b l =>
      rw [List.cons_append, List.dropWhile_cons, if_neg]
      rw [hl.isBlank_head rfl]
      simp
  have hlex : ({ rest := l ++ r } : Cursor).next.1.lexeme = l := by
    rw [Cursor.lexeme_next, hdrop, h]
  have hkind : ({ rest := l ++ r } : Cursor).next.1.kind ≠ .finish := by
    rw [Cursor.kind_next, hlex, ne_eq, Token.Kind.ofLexeme_eq_finish_iff]
    exact hl.ne_nil
  have hrest : ({ rest := l ++ r } : Cursor).next.2.rest = r := by
    simp only [Cursor.next, hdrop, h, List.drop_left]
  rw [lexemes, Cursor.stream, if_neg hkind, List.map_cons, hlex, Cursor.map_lexeme_stream, hrest]

/-- A text holds nothing but blanks, or begins with blanks and a lexeme that ends
there. -/
theorem blanks_or_lexeme (t : Text) :
    (∀ b ∈ t, isBlank b) ∨
      ∃ g l r, t = g ++ (l ++ r) ∧ (∀ b ∈ g, isBlank b) ∧ l.IsLexeme ∧
        Token.lexemeOf (l ++ r) = l := by
  have hblank : ∀ b ∈ t.takeWhile isBlank, isBlank b :=
    fun b hb => List.all_eq_true.1 List.all_takeWhile b hb
  cases hd : t.dropWhile isBlank with
  | nil => exact .inl (List.dropWhile_eq_nil_iff.1 hd)
  | cons b s =>
    have hb : isBlank b = false := by
      have hhead := List.head?_dropWhile_not isBlank t
      simpa [hd] using hhead
    obtain ⟨r, hr⟩ := Token.exists_lexemeOf_append (b :: s)
    refine .inr ⟨t.takeWhile isBlank, Token.lexemeOf (b :: s), r, ?_, hblank,
      Token.isLexeme_lexemeOf hb, by rw [hr]⟩
    rw [hr, ← hd, List.takeWhile_append_dropWhile]

/-- What holds of blanks, and of a text if it holds of what is behind its first
lexeme, holds of all texts. -/
@[elab_as_elim] theorem lexeme_induction {P : Text → Prop} (t : Text)
    (blank : ∀ t, (∀ b ∈ t, isBlank b) → P t)
    (lexeme : ∀ g w r, (∀ b ∈ g, isBlank b) → IsLexeme w → Token.lexemeOf (w ++ r) = w → P r →
      P (g ++ (w ++ r))) : P t := by
  rcases blanks_or_lexeme t with hblank | ⟨g, w, r, ht, hg, hw, hend⟩
  · exact blank t hblank
  · have hlt : r.length < t.length := by
      have hpos := List.length_pos_iff.2 hw.ne_nil
      simp only [ht, List.length_append]
      omega
    rw [ht]
    exact lexeme g w r hg hw hend (lexeme_induction r blank lexeme)
termination_by t.length

/-- The lexemes of a text are none, or the one it begins with and those of the
rest. -/
theorem lexemes_cases (t : Text) :
    lexemes t = [] ∨
      ∃ g l r, t = g ++ (l ++ r) ∧ (∀ b ∈ g, isBlank b) ∧ l.IsLexeme ∧
        Token.lexemeOf (l ++ r) = l ∧ lexemes t = l :: lexemes r := by
  rcases blanks_or_lexeme t with hblank | ⟨g, l, r, rfl, hg, hl, hend⟩
  · have hskip := lexemes_blanks_append hblank []
    rw [List.append_nil, lexemes_nil] at hskip
    exact .inl hskip
  · exact .inr ⟨g, l, r, rfl, hg, hl, hend,
      by rw [lexemes_blanks_append hg, lexemes_append hl hend]⟩

/-! ## Well spelled lexemes -/

/-- Lexemes that one text can hold side by side: none of them holds a NUL byte
and no two gaps meet. -/
structure Spelled (ls : List Text) : Prop where
  isLexeme : ∀ l ∈ ls, l.IsLexeme
  noNul : ∀ l ∈ ls, (0 : UInt8) ∉ l
  apart : ls.IsChain fun l m => ¬ (l.IsGap ∧ m.IsGap)

namespace Spelled

theorem nil : Spelled [] where
  isLexeme := by simp
  noNul := by simp
  apart := .nil

/-- A part of a text is as well spelled as the whole. -/
theorem of_append {ls ms : List Text} (h : Spelled (ls ++ ms)) : Spelled ls ∧ Spelled ms := by
  obtain ⟨hl, hn, hc⟩ := h
  rw [List.isChain_append] at hc
  exact ⟨⟨fun l hm => hl l (by simp [hm]), fun l hm => hn l (by simp [hm]), hc.1⟩,
    ⟨fun l hm => hl l (by simp [hm]), fun l hm => hn l (by simp [hm]), hc.2.1⟩⟩

/-- Words may stand in front of anything. -/
theorem cons_of_isWordy {w : Text} {ls : List Text} (hw : w.IsWordy) (h0 : (0 : UInt8) ∉ w)
    (h : Spelled ls) : Spelled (w :: ls) where
  isLexeme := List.forall_mem_cons.2 ⟨.inl hw, h.isLexeme⟩
  noNul := List.forall_mem_cons.2 ⟨h0, h.noNul⟩
  apart := by
    cases ls with
    | nil => exact .singleton w
    | cons l ls =>
      rw [List.isChain_cons_cons]
      exact ⟨fun hg => not_isGap_of_isWordy hw hg.1, h.apart⟩

/-- Two well spelled parts may meet at a word. -/
theorem append_cons_of_isWordy {w : Text} {ls ms : List Text} (hw : w.IsWordy)
    (hl : Spelled ls) (hm : Spelled (w :: ms)) : Spelled (ls ++ w :: ms) where
  isLexeme := List.forall_mem_append.2 ⟨hl.isLexeme, hm.isLexeme⟩
  noNul := List.forall_mem_append.2 ⟨hl.noNul, hm.noNul⟩
  apart := by
    refine List.isChain_append.2 ⟨hl.apart, hm.apart, fun l _ m hmem hg => ?_⟩
    rw [List.head?_cons, Option.mem_some_iff] at hmem
    exact not_isGap_of_isWordy hw (hmem ▸ hg.2)

theorem ne_nil_of_mem {ls : List Text} {l : Text} (h : Spelled ls) (hl : l ∈ ls) : l ≠ [] :=
  (h.isLexeme l hl).ne_nil

end Spelled

/-- The lexemes of a text are well spelled. -/
theorem spelled_lexemes {t : Text} (h0 : (0 : UInt8) ∉ t) : Spelled (lexemes t) := by
  rcases lexemes_cases t with h | ⟨g, l, r, ht, hg, hl, hend, h⟩
  · rw [h]
    exact .nil
  · have hlt : r.length < t.length := by
      have hpos := List.length_pos_iff.2 hl.ne_nil
      simp only [ht, List.length_append]
      omega
    have hr0 : (0 : UInt8) ∉ r := fun hm => h0 (by simp [ht, hm])
    have ih := spelled_lexemes hr0
    rw [h]
    refine ⟨List.forall_mem_cons.2 ⟨hl, ih.isLexeme⟩,
      List.forall_mem_cons.2 ⟨fun hm => h0 (by simp [ht, hm]), ih.noNul⟩, ?_⟩
    rcases lexemes_cases r with hr | ⟨g', m, r', hr', hg', hm, -, hr⟩
    · rw [hr]
      exact .singleton l
    · rw [hr] at ih ⊢
      refine List.isChain_cons_cons.2 ⟨?_, ih.apart⟩
      rintro ⟨hlg, hmg⟩
      -- the line feed of a second gap would belong to the first
      have hfeed := Token.lineFeed_not_mem_of_isGap hlg hend
      rw [hr'] at hfeed
      exact hfeed (Token.lineFeed_mem_takeWhile hg' hmg r')
termination_by t.length

/-! ## Lexemes with spaces between them -/

/-- Texts with single spaces between them. -/
def spaced : List Text → Text
  | [] => []
  | [l] => l
  | l :: m :: ls => l ++ space :: spaced (m :: ls)

@[simp] theorem spaced_nil : spaced [] = [] := rfl

@[simp] theorem spaced_singleton (l : Text) : spaced [l] = l := rfl

theorem spaced_cons {l : Text} {ls : List Text} (h : ls ≠ []) :
    spaced (l :: ls) = l ++ space :: spaced ls := by
  cases ls with
  | nil => exact absurd rfl h
  | cons m ls => rfl

theorem spaced_append {ls ms : List Text} (hl : ls ≠ []) (hm : ms ≠ []) :
    spaced (ls ++ ms) = spaced ls ++ space :: spaced ms := by
  induction ls with
  | nil => exact absurd rfl hl
  | cons l ls ih =>
    cases ls with
    | nil => rw [List.singleton_append, spaced_cons hm, spaced_singleton]
    | cons k ls =>
      rw [List.cons_append, spaced_cons (by simp), ih (by simp), spaced_cons (l := l) (by simp),
        List.append_assoc, List.cons_append]

/-- Well spelled lexemes with spaces between them are scanned as themselves. -/
theorem lexemes_spaced_append {ls : List Text} {r : Text} (h : Spelled ls)
    (hr : ∀ b, r.head? = some b → b = fullStop) : lexemes (spaced ls ++ r) = ls ++ lexemes r := by
  induction ls with
  | nil => rfl
  | cons l ls ih =>
    have hl := h.isLexeme l (by simp)
    have htail : Spelled ls := by
      rw [← List.singleton_append] at h
      exact h.of_append.2
    cases ls with
    | nil => exact lexemes_append hl (Token.lexemeOf_append_stop hl hr)
    | cons m ls =>
      have hm := h.isLexeme m (by simp)
      have hend : Token.lexemeOf (l ++ space :: (spaced (m :: ls) ++ r)) = l := by
        obtain ⟨s, hs⟩ : ∃ s, spaced (m :: ls) ++ r = m ++ s := by
          cases ls with
          | nil => exact ⟨r, rfl⟩
          | cons k ls => exact ⟨space :: spaced (k :: ls) ++ r, by simp [spaced]⟩
        rw [hs]
        exact Token.lexemeOf_append_space hl hm (List.isChain_cons_cons.1 h.apart).1
      rw [spaced_cons (by simp), List.append_assoc, List.cons_append, lexemes_append hl hend,
        lexemes_space_cons, ih htail, ← List.cons_append]

theorem lexemes_spaced {ls : List Text} (h : Spelled ls) : lexemes (spaced ls) = ls := by
  have hscanned := lexemes_spaced_append (r := []) h (by simp)
  rwa [List.append_nil, lexemes_nil, List.append_nil] at hscanned

/-- Joining tokens puts spaces between their lexemes. -/
theorem Token.join_eq_spaced {ts : List Token} (h : ∀ t ∈ ts, t.lexeme ≠ []) :
    Token.join ts = spaced (ts.map (·.lexeme)) := by
  have hfold (acc : Text) (hacc : acc ≠ []) (ts : List Token) (h : ∀ t ∈ ts, t.lexeme ≠ []) :
      ts.foldl (fun joined t =>
        (if joined.isEmpty then [] else joined ++ [space]) ++ t.lexeme) acc =
        spaced (acc :: ts.map (·.lexeme)) := by
    induction ts generalizing acc with
    | nil => rfl
    | cons t ts ih =>
      rw [List.foldl_cons, if_neg (by simpa using hacc), ih _ (by simp)
        fun u hu => h u (by simp [hu])]
      cases ts <;> simp [spaced]
  cases ts with
  | nil => rfl
  | cons t ts =>
    rw [Token.join_eq_foldl, List.foldl_cons, if_pos (by rfl), List.nil_append,
      hfold t.lexeme (h t (by simp)) ts fun u hu => h u (by simp [hu])]
    rfl


theorem mem_spaced {b : UInt8} {ls : List Text} (h : b ∈ spaced ls) :
    b = space ∨ ∃ l ∈ ls, b ∈ l := by
  induction ls with
  | nil => simp at h
  | cons l ls ih =>
    cases ls with
    | nil => exact .inr ⟨l, by simp, h⟩
    | cons m ls =>
      rw [spaced_cons (by simp), List.mem_append, List.mem_cons] at h
      rcases h with h | h | h
      · exact .inr ⟨l, by simp, h⟩
      · exact .inl h
      · rcases ih h with h | ⟨k, hk, h⟩
        · exact .inl h
        · exact .inr ⟨k, List.mem_cons_of_mem l hk, h⟩

theorem Spelled.noNul_spaced {ls : List Text} (h : Spelled ls) : (0 : UInt8) ∉ spaced ls := by
  intro h0
  rcases mem_spaced h0 with h0 | ⟨l, hl, h0⟩
  · exact absurd h0 (by decide)
  · exact h.noNul l hl h0

/-! ## Tokens without a place -/

namespace Token

/-- The token with a given lexeme, standing nowhere. -/
def ofLexeme (l : Text) : Token := { kind := Kind.ofLexeme l, lexeme := l }

/-- A token without its place and its blanks. -/
def bare (t : Token) : Token := { kind := t.kind, lexeme := t.lexeme }

@[simp] theorem lexeme_bare (t : Token) : t.bare.lexeme = t.lexeme := rfl

@[simp] theorem kind_bare (t : Token) : t.bare.kind = t.kind := rfl

@[simp] theorem lexeme_ofLexeme (l : Text) : (ofLexeme l).lexeme = l := rfl

@[simp] theorem kind_ofLexeme (l : Text) : (ofLexeme l).kind = Kind.ofLexeme l := rfl

/-- Of the lexemes, only the full stop is a period. -/
theorem Kind.ofLexeme_eq_period_iff {l : Text} (h : l.IsLexeme) :
    Kind.ofLexeme l = .period ↔ l = [fullStop] := by
  constructor
  · intro hk
    rcases h with h | h | h
    · cases l with
      | nil => exact absurd rfl h.1
      | cons b l =>
        have hb := h.2 b (by simp)
        rw [Kind.ofLexeme, if_neg (ne_lineFeed_of_isWordByte hb),
          if_neg (ne_fullStop_of_isWordByte hb)] at hk
        simp only [Kind.ofDigits, Kind.ofWord] at hk
        repeat' split at hk
        all_goals cases hk
    · exact h
    · cases l with
      | nil => simp [Text.IsGap] at h
      | cons b l =>
        have hb := h.1
        rw [List.head?_cons, Option.some.injEq] at hb
        rw [Kind.ofLexeme, if_pos hb] at hk
        split at hk <;> cases hk
  · rintro rfl
    rfl

end Token

/-- Scanned tokens hold no more than their lexemes, their places apart. -/
theorem Cursor.map_bare_stream (c : Cursor) :
    c.stream.ahead.map Token.bare = (lexemes c.rest).map Token.ofLexeme := by
  rw [← c.map_lexeme_stream, List.map_map]
  refine List.map_congr_left fun t ht => ?_
  simp only [Token.bare, Function.comp_apply, Token.ofLexeme, c.kind_of_mem_stream ht]

/-- The token that ends a text holds nothing. -/
theorem Cursor.bare_finish_stream (c : Cursor) : c.stream.finish.bare = Token.ofLexeme [] := by
  rw [stream]
  split
  · next hkind =>
    have hlexeme : c.next.1.lexeme = [] := by
      rwa [kind_next, Token.Kind.ofLexeme_eq_finish_iff] at hkind
    simp only [Token.bare, Token.ofLexeme, kind_next, hlexeme]
  · exact bare_finish_stream c.next.2
termination_by c.rest.length
decreasing_by exact length_rest_next_lt ‹_›

/-- The lexemes of the first sentence of a text. -/
def sentenceLexemes (t : Text) : List Text := (lexemes t.untilNul).takeWhile (· ≠ [fullStop])

theorem noNul_untilNul (t : Text) : (0 : UInt8) ∉ t.untilNul := fun h => by
  have h0 := List.all_eq_true.1 List.all_takeWhile _ h
  simp at h0

theorem map_bare_sentence (book : Text) :
    (Token.sentence book).map Token.bare = (sentenceLexemes book).map Token.ofLexeme := by
  have hlex := (spelled_lexemes (noNul_untilNul book)).isLexeme
  have htake (ls : List Text) (h : ∀ l ∈ ls, l.IsLexeme) :
      ls.takeWhile (fun l => Token.Kind.ofLexeme l ≠ .period) = ls.takeWhile (· ≠ [fullStop]) := by
    induction ls with
    | nil => rfl
    | cons l ls ih =>
      rw [List.forall_mem_cons] at h
      simp only [List.takeWhile_cons, ne_eq, Token.Kind.ofLexeme_eq_period_iff h.1, ih h.2]
  have hbare : (Token.sentence book).map Token.bare =
      ((TokenStream.ofText book).ahead.map Token.bare).takeWhile (·.kind ≠ .period) := by
    rw [List.takeWhile_map]
    rfl
  rw [hbare, TokenStream.ofText, Cursor.map_bare_stream, List.takeWhile_map, sentenceLexemes,
    ← htake _ hlex]
  rfl

theorem spelled_sentenceLexemes (book : Text) : Spelled (sentenceLexemes book) := by
  have h := spelled_lexemes (noNul_untilNul book)
  rw [← List.takeWhile_append_dropWhile (p := (· ≠ [fullStop])) (l := lexemes book.untilNul)] at h
  exact h.of_append.1

/-- Well spelled words and a period are scanned as a sentence of these words. -/
theorem sentenceLexemes_spaced {ls : List Text} (h : Spelled ls) (hp : [fullStop] ∉ ls) :
    sentenceLexemes (spaced ls ++ [fullStop]) = ls := by
  have hz : ∀ b ∈ spaced ls ++ [fullStop], b ≠ 0 := by
    intro b hb h0
    rcases List.mem_append.1 hb with hb | hb
    · exact h.noNul_spaced (h0 ▸ hb)
    · rw [List.mem_singleton] at hb
      rw [hb] at h0
      exact absurd h0 (by decide)
  have hstop : lexemes [fullStop] = [[fullStop]] := by
    have hl : Text.IsLexeme [fullStop] := .inr (.inl rfl)
    have happ := lexemes_append hl (Token.lexemeOf_fullStop [])
    rwa [lexemes_nil, List.append_nil] at happ
  rw [sentenceLexemes, untilNul_eq_self hz, lexemes_spaced_append h (by simp), hstop,
    List.takeWhile_append_of_pos]
  · simp
  · intro l hl
    have hne : l ≠ [fullStop] := fun he => hp (he ▸ hl)
    simpa using hne

end Cookbook
