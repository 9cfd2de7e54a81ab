import Cookbook.Proofs.Token.Munch
import Mathlib.Data.List.DropRight

/-!
# Cookbook.Proofs.Token.Seam

The tokens of two texts with an empty line between them.  The white space around
the seam is one blank line, whatever breaks the first text ends with and the
second begins with; before it stand the tokens of the first text and behind it
those of the second, as many lines further down as the first text and the empty
line have (`exists_scan_append`).
-/

namespace Cookbook

open Text

/-! ## Dropping from the right -/

section

variable {p : α → Bool} {xs ys : List α}

theorem rdropWhile_append_of_all (h : ∀ y ∈ ys, p y) :
    (xs ++ ys).rdropWhile p = xs.rdropWhile p := by
  have hall : ∀ y ∈ ys.reverse, p y := fun y hy => h y (List.mem_reverse.1 hy)
  rw [List.rdropWhile, List.rdropWhile, List.reverse_append, List.dropWhile_append_of_pos hall]

theorem rdropWhile_append_of_ne_nil (h : ys.rdropWhile p ≠ []) :
    (xs ++ ys).rdropWhile p = xs ++ ys.rdropWhile p := by
  rw [List.rdropWhile, ne_eq, List.reverse_eq_nil_iff] at h
  rw [List.rdropWhile, List.rdropWhile, List.reverse_append, List.dropWhile_append,
    if_neg (by simpa using h), List.reverse_append, List.reverse_reverse]

end

/-! ## Places further down -/

namespace Location

/-- The place `n` lines further down. -/
def down (n : Nat) (l : Location) : Location := { l with line := l.line + n }

theorem step_down (n : Nat) (l : Location) (b : UInt8) : (l.down n).step b = (l.step b).down n := by
  unfold step down
  split
  · simp only [Location.mk.injEq, and_true]
    omega
  · rfl

theorem past_down (n : Nat) (l : Location) (t : Text) : (l.down n).past t = (l.past t).down n := by
  induction t generalizing l with
  | nil => rfl
  | cons b t ih =>
    show ((l.down n).step b).past t = ((l.step b).past t).down n
    rw [step_down, ih]

/-- Behind a text and an empty line, a text begins as many lines further down as
these have line feeds. -/
theorem past_start_emptyLine (t : Text) :
    start.past (t ++ [lineFeed, lineFeed]) = start.down (t.count lineFeed + 2) := by
  have hlf : (lineFeed == lineFeed) = true := rfl
  rw [past_append, past_start]
  simp only [past, behind, List.foldl_cons, List.foldl_nil, step, hlf, if_true, down, start,
    Location.mk.injEq, and_true]
  omega

end Location

/-- The same token at another place. -/
def Token.relocated (g : Location → Location) (t : Token) : Token :=
  { t with location := g t.location }

section

variable (g : Location → Location) (t : Token)

@[simp] theorem Token.kind_relocated : (t.relocated g).kind = t.kind := rfl

@[simp] theorem Token.lexeme_relocated : (t.relocated g).lexeme = t.lexeme := rfl

@[simp] theorem Token.blanks_relocated : (t.relocated g).blanks = t.blanks := rfl

@[simp] theorem Token.location_relocated : (t.relocated g).location = g t.location := rfl

end

/-! ## Texts that begin anywhere -/

namespace Token

/-- The tokens of a text that begins at a place. -/
def scanFrom (l : Location) (t : Text) : List Token :=
  ({ rest := t, location := l } : Cursor).stream.toList

variable {l : Location} {g w r : Text}

theorem scanFrom_of_blank (hg : ∀ b ∈ g, isBlank b) :
    scanFrom l g = [{ kind := .finish, lexeme := [], location := l.past g, blanks := g }] :=
  Cursor.toList_stream_of_blank hg

theorem scanFrom_of_lexeme (hg : ∀ b ∈ g, isBlank b) (hw : w.IsLexeme)
    (hend : lexemeOf (w ++ r) = w) :
    scanFrom l (g ++ (w ++ r)) =
      { kind := .ofLexeme w, lexeme := w, location := l.past g, blanks := g } ::
        scanFrom (l.past (g ++ w)) r :=
  Cursor.toList_stream_of_lexeme rfl hg hw hend

theorem scanFrom_ne_nil (t : Text) : scanFrom l t ≠ [] := by simp [scanFrom, TokenStream.toList]

/-- A text that stands further down has its tokens further down. -/
theorem scanFrom_down (n : Nat) (l : Location) (t : Text) :
    scanFrom (l.down n) t = (scanFrom l t).map (relocated (.down n)) := by
  induction t using lexeme_induction generalizing l with
  | blank t hblank =>
    rw [scanFrom_of_blank hblank, scanFrom_of_blank hblank, Location.past_down]
    rfl
  | lexeme g w r hg hw hend ih =>
    rw [scanFrom_of_lexeme hg hw hend, scanFrom_of_lexeme hg hw hend, Location.past_down,
      Location.past_down, ih]
    rfl

/-! ## White space behind a text -/

end Token

/-- Whether a text does not end with white space. -/
def Text.Trimmed (s : Text) : Prop := ∀ b, s.getLast? = some b → isWhite b = false

theorem Text.Trimmed.of_append {s t : Text} (h : Trimmed (s ++ t)) : t.Trimmed := by
  intro b hb
  refine h b ?_
  rw [List.getLast?_append_of_ne_nil _ (by rintro rfl; simp at hb), hb]

theorem Text.Trimmed.eq_nil {s : Text} (h : s.Trimmed) (hs : ∀ b ∈ s, isWhite b) : s = [] := by
  cases hb : s.getLast? with
  | none => exact List.getLast?_eq_none_iff.1 hb
  | some b =>
    have hwhite := hs b (List.mem_of_getLast? hb)
    rw [h b hb] at hwhite
    cases hwhite

theorem Text.trimmed_rdropWhile (t : Text) : Trimmed (t.rdropWhile isWhite) := by
  intro b hb
  have hne : t.rdropWhile isWhite ≠ [] := by
    intro hnil
    simp [hnil] at hb
  rw [List.getLast?_eq_some_getLast hne, Option.some.injEq] at hb
  simpa [hb] using List.rdropWhile_last_not isWhite t hne

namespace Token

variable {l : Location} {w r s x : Text} {t : Token}

/-- A lexeme of a trimmed text is not prolonged by white space behind the
text. -/
theorem lexemeOf_append_white (hw : w.IsLexeme) (hend : lexemeOf (w ++ r) = w)
    (hs : Trimmed (w ++ r)) (hx : ∀ b, x.head? = some b → isWhite b) :
    lexemeOf (w ++ (r ++ x)) = w := by
  rcases hw with hword | rfl | hgap
  · refine lexemeOf_append_of_isWordy hword fun b hb => ?_
    cases r with
    | nil => simp [isWordByte, hx b hb]
    | cons c r => exact isWordByte_head_of_lexemeOf hword hend hb
  · exact lexemeOf_fullStop _
  · refine lexemeOf_append_of_isGap hgap ?_
    -- the white space behind the gap ends within the text
    have hstop : (r.takeWhile isWhite).length ≠ r.length := by
      intro hlength
      have hall : r.takeWhile isWhite = r := (List.takeWhile_prefix isWhite).eq_of_length hlength
      have hnil := hs.eq_nil
        (List.forall_mem_append.2 ⟨hgap.2.2, List.takeWhile_eq_self_iff.1 hall⟩)
      simp [IsGap, (List.append_eq_nil_iff.1 hnil).1] at hgap
    rw [List.takeWhile_append, if_neg hstop]
    exact lineFeed_not_mem_of_isGap hgap hend

/-- Behind a trimmed text, white space begins a token of its own. -/
theorem scanFrom_append (hs : s.Trimmed) (hx : ∀ b, x.head? = some b → isWhite b) :
    scanFrom l (s ++ x) = (scanFrom l s).dropLast ++ scanFrom (l.past s) x := by
  induction s using lexeme_induction generalizing l with
  | blank s hblank =>
    have hnil : s = [] := hs.eq_nil fun b hb => isWhite_of_isBlank (hblank b hb)
    rw [scanFrom_of_blank hblank, hnil]
    rfl
  | lexeme g w r hg hw hend ih =>
    have hassoc : g ++ (w ++ r) ++ x = g ++ (w ++ (r ++ x)) := by simp
    rw [hassoc, scanFrom_of_lexeme hg hw (lexemeOf_append_white hw hend hs.of_append hx),
      ih hs.of_append.of_append, scanFrom_of_lexeme hg hw hend,
      List.dropLast_cons_of_ne_nil (scanFrom_ne_nil r), ← Location.past_append, List.append_assoc,
      List.cons_append]

/-- The tokens of white space are ends of lines. -/
theorem isLineEnd_of_mem_dropLast (hw : ∀ b ∈ w, isWhite b) (ht : t ∈ (scanFrom l w).dropLast) :
    t.isLineEnd := by
  induction w using lexeme_induction generalizing l with
  | blank w hblank => simp [scanFrom_of_blank hblank] at ht
  | lexeme g w r hg hlex hend ih =>
    rw [List.forall_mem_append, List.forall_mem_append] at hw
    rw [scanFrom_of_lexeme hg hlex hend, List.dropLast_cons_of_ne_nil (scanFrom_ne_nil r),
      List.mem_cons] at ht
    rcases ht with rfl | ht
    · have hgap : w.IsGap := by
        rcases hlex with hword | rfl | hgap
        · obtain ⟨b, v, rfl⟩ := List.exists_cons_of_ne_nil hword.1
          have hwhite := hw.2.1 b (by simp)
          rw [isWhite_of_isWordByte (hword.2 b (by simp))] at hwhite
          cases hwhite
        · exact absurd (hw.2.1 fullStop (by simp)) (by decide)
        · exact hgap
      exact (isLineEnd_ofLexeme_iff hlex).2 hgap
    · exact ih hw.2.2 ht

/-- The last token of a trimmed text is no end of a line. -/
theorem isLineEnd_getLast?_dropLast (hs : s.Trimmed)
    (ht : (scanFrom l s).dropLast.getLast? = some t) : t.isLineEnd = false := by
  induction s using lexeme_induction generalizing l with
  | blank s hblank => simp [scanFrom_of_blank hblank] at ht
  | lexeme g w r hg hw hend ih =>
    rw [scanFrom_of_lexeme hg hw hend, List.dropLast_cons_of_ne_nil (scanFrom_ne_nil r)] at ht
    cases hmore : (scanFrom (l.past (g ++ w)) r).dropLast with
    | cons u us =>
      rw [hmore, List.getLast?_cons_cons, ← hmore] at ht
      exact ih hs.of_append.of_append ht
    | nil =>
      rw [hmore, List.getLast?_singleton, Option.some.injEq] at ht
      have hr : ∀ b ∈ r, isBlank b := by
        rcases blanks_or_lexeme r with hblank | ⟨g', w', r', rfl, hg', hw', hend'⟩
        · exact hblank
        · rw [scanFrom_of_lexeme hg' hw' hend',
            List.dropLast_cons_of_ne_nil (scanFrom_ne_nil r')] at hmore
          cases hmore
      rw [← Bool.not_eq_true, ← ht]
      intro hend'
      have hgap := (isLineEnd_ofLexeme_iff hw).1 hend'
      have hnil := hs.of_append.eq_nil
        (List.forall_mem_append.2 ⟨hgap.2.2, fun b hb => isWhite_of_isBlank (hr b hb)⟩)
      exact hw.ne_nil (List.append_eq_nil_iff.1 hnil).1

/-- Without the ends of lines behind it, a text has the tokens of the trimmed
text. -/
theorem rdropWhile_scanFrom (l : Location) (t : Text) :
    (scanFrom l t).dropLast.rdropWhile isLineEnd =
      (scanFrom l (t.rdropWhile isWhite)).dropLast := by
  have hwhite : ∀ b ∈ t.rtakeWhile isWhite, isWhite b := fun b hb => List.mem_rtakeWhile_imp hb
  have hsplit := scanFrom_append (l := l) (trimmed_rdropWhile t)
    fun b hb => hwhite b (List.mem_of_mem_head? hb)
  rw [List.rdropWhile_append_rtakeWhile] at hsplit
  rw [hsplit, List.dropLast_append_of_ne_nil (scanFrom_ne_nil _),
    rdropWhile_append_of_all fun u hu => isLineEnd_of_mem_dropLast hwhite hu,
    List.rdropWhile_eq_self_iff]
  intro hne hend
  have hlast := isLineEnd_getLast?_dropLast (trimmed_rdropWhile t)
    (List.getLast?_eq_some_getLast hne)
  rw [hend] at hlast
  cases hlast

/-! ## Breaks in front of a text -/

/-- White space up to a line feed is a break with blanks in front of it, if there
is no line feed in the white space behind it. -/
theorem exists_scanFrom_of_white {v : Text} (hv : ∀ b ∈ v, isWhite b)
    (hlast : v.getLast? = some lineFeed) (hr : lineFeed ∉ r.takeWhile isWhite) :
    ∃ t : Token, t.isLineEnd ∧ (2 ≤ v.count lineFeed → t.kind = .blankLine) ∧
      scanFrom l (v ++ r) = t :: scanFrom (l.past v) r := by
  have hsplit : v.takeWhile isBlank ++ v.dropWhile isBlank = v := List.takeWhile_append_dropWhile
  have hblanks : ∀ b ∈ v.takeWhile isBlank, isBlank b :=
    fun b hb => List.all_eq_true.1 List.all_takeWhile b hb
  have hgap : IsGap (v.dropWhile isBlank) := by
    have hne : v.dropWhile isBlank ≠ [] := by
      intro hnil
      have hblank := List.dropWhile_eq_nil_iff.1 hnil lineFeed (List.mem_of_getLast? hlast)
      exact absurd hblank (by decide)
    refine ⟨?_, ?_, fun b hb => hv b ((List.dropWhile_sublist isBlank).subset hb)⟩
    · obtain ⟨b, u, hcons⟩ := List.exists_cons_of_ne_nil hne
      have hwhite := hv b ((List.dropWhile_sublist isBlank).subset (by simp [hcons]))
      have hblank := List.head?_dropWhile_not isBlank v
      simp only [hcons, List.head?_cons] at hblank ⊢
      simpa [isWhite, hblank] using hwhite
    · rwa [← hsplit, List.getLast?_append_of_ne_nil _ hne] at hlast
  have hcount : v.count lineFeed = (v.dropWhile isBlank).count lineFeed := by
    have hnone : lineFeed ∉ v.takeWhile isBlank := fun hmem => absurd (hblanks _ hmem) (by decide)
    rw [← congrArg (List.count lineFeed) hsplit, List.count_append,
      List.count_eq_zero_of_not_mem hnone, Nat.zero_add]
  have hscan := scanFrom_of_lexeme (l := l) hblanks (.inr (.inr hgap))
    (lexemeOf_append_of_isGap hgap hr)
  rw [← List.append_assoc, hsplit] at hscan
  refine ⟨_, ?_, fun htwo => ?_, hscan⟩
  · exact (isLineEnd_ofLexeme_iff (.inr (.inr hgap))).2 hgap
  · rw [hcount] at htwo
    exact (Kind.ofLexeme_of_isGap hgap).trans (if_pos htwo)

/-- A text that begins with no break has no end of a line first. -/
theorem dropWhile_scanFrom (hr : lineFeed ∉ r.takeWhile isWhite) :
    (scanFrom l r).dropWhile isLineEnd = scanFrom l r := by
  rcases blanks_or_lexeme r with hblank | ⟨g, w, s, rfl, hg, hw, hend⟩
  · rw [scanFrom_of_blank hblank]
    rfl
  · have hend' : (Token.ofLexeme w).isLineEnd = false := by
      rw [← Bool.not_eq_true, isLineEnd_ofLexeme_iff hw]
      exact fun hgap => hr (lineFeed_mem_takeWhile hg hgap s)
    rw [scanFrom_of_lexeme hg hw hend, List.dropWhile_cons, if_neg]
    simpa [isLineEnd] using hend'

/-- Without its first end of a line, a text has the tokens behind its first
break. -/
theorem dropWhile_scanFrom_of_breakRun {t : Text} (h : breakRun t ++ r = t) :
    (scanFrom l t).dropWhile isLineEnd = scanFrom (l.past (breakRun t)) r := by
  have hr := lineFeed_not_mem_of_breakRun_append h
  by_cases hnil : breakRun t = []
  · rw [hnil, List.nil_append] at h
    rw [hnil, Location.past_nil, h, dropWhile_scanFrom (h ▸ hr)]
  · obtain ⟨u, hu, -, hscan⟩ := exists_scanFrom_of_white (l := l)
      (fun b hb => isWhite_of_mem_breakRun hb) (getLast?_breakRun hnil) hr
    rw [h] at hscan
    rw [hscan, List.dropWhile_cons, if_pos hu, dropWhile_scanFrom hr]

end Token

/-! ## The seam -/

/-- The tokens of a text without NUL bytes. -/
theorem Token.scan_eq_scanFrom {t : Text} (h : (0 : UInt8) ∉ t) : scan t = scanFrom .start t := by
  rw [scan, scanFrom, TokenStream.ofText, Cursor.start,
    untilNul_eq_self fun b hb hz => h (hz ▸ hb)]

/-- Two texts with an empty line between them have the tokens of the first, a
blank line and the tokens of the second further down. -/
theorem exists_scan_append {s t : Text} (hs : (0 : UInt8) ∉ s) (ht : (0 : UInt8) ∉ t) :
    ∃ blank : Token, blank.kind = .blankLine ∧
      Token.scan (s ++ ofString "\n\n" ++ t) =
        (Token.scan s).dropLast.rdropWhile Token.isLineEnd ++
          blank :: ((Token.scan t).dropWhile Token.isLineEnd).map
            (Token.relocated (.down (s.count lineFeed + 2))) := by
  have hlines : ofString "\n\n" = [lineFeed, lineFeed] := by decide
  have hst : (0 : UInt8) ∉ s ++ [lineFeed, lineFeed] ++ t := by
    simp only [List.mem_append, not_or]
    exact ⟨⟨hs, by decide⟩, ht⟩
  obtain ⟨r, hr⟩ := Token.exists_breakRun_append t
  -- all the white space around the seam
  obtain ⟨v, hv⟩ : ∃ v, v = s.rtakeWhile isWhite ++ ([lineFeed, lineFeed] ++ Token.breakRun t) :=
    ⟨_, rfl⟩
  have hwhite : ∀ b ∈ v, isWhite b := by
    have hfeed : isWhite lineFeed := by decide
    rw [hv, List.forall_mem_append, List.forall_mem_append]
    exact ⟨fun b hb => List.mem_rtakeWhile_imp hb,
      List.forall_mem_cons.2 ⟨hfeed, List.forall_mem_singleton.2 hfeed⟩,
      fun b hb => Token.isWhite_of_mem_breakRun hb⟩
  have hlast : v.getLast? = some lineFeed := by
    rw [hv, List.getLast?_append_of_ne_nil _ (by simp)]
    by_cases hnil : Token.breakRun t = []
    · rw [hnil]
      rfl
    · rw [List.getLast?_append_of_ne_nil _ hnil, Token.getLast?_breakRun hnil]
  have hsplit : s ++ [lineFeed, lineFeed] ++ t = s.rdropWhile isWhite ++ (v ++ r) := by
    have htrim : s.rdropWhile isWhite ++ s.rtakeWhile isWhite = s :=
      List.rdropWhile_append_rtakeWhile
    calc s ++ [lineFeed, lineFeed] ++ t
        = s.rdropWhile isWhite ++ s.rtakeWhile isWhite ++ [lineFeed, lineFeed] ++
            (Token.breakRun t ++ r) := by rw [htrim, hr]
      _ = s.rdropWhile isWhite ++ (v ++ r) := by simp only [hv, List.append_assoc]
  have hplace : (Location.start.past (s.rdropWhile isWhite)).past v =
      (Location.start.past (Token.breakRun t)).down (s.count lineFeed + 2) := by
    rw [← Location.past_append, hv, ← List.append_assoc, List.rdropWhile_append_rtakeWhile,
      ← List.append_assoc, Location.past_append, Location.past_start_emptyLine, Location.past_down]
  obtain ⟨blank, -, hblank, hscan⟩ :=
    Token.exists_scanFrom_of_white (l := Location.start.past (s.rdropWhile isWhite)) hwhite hlast
      (Token.lineFeed_not_mem_of_breakRun_append hr)
  refine ⟨blank, hblank ?_, ?_⟩
  · rw [hv, List.count_append, List.count_append]
    have htwo : [lineFeed, lineFeed].count lineFeed = 2 := rfl
    omega
  · rw [hlines, Token.scan_eq_scanFrom hst, Token.scan_eq_scanFrom hs, Token.scan_eq_scanFrom ht,
      hsplit, Token.scanFrom_append (trimmed_rdropWhile s), hscan, hplace, Token.scanFrom_down,
      Token.rdropWhile_scanFrom, Token.dropWhile_scanFrom_of_breakRun hr]
    intro b hb
    refine hwhite b (List.mem_of_mem_head? ?_)
    rwa [List.head?_append_of_ne_nil _ (by rw [hv]; simp)] at hb

end Cookbook
