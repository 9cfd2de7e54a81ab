import Cookbook.Program.Assembly
import Cookbook.Proofs.Draft.Parsed

/-!
# Cookbook.Proofs.Draft.Manuscript

Recipes written out plainly: the title, the heading of the method and one
statement a line, with a blank line between recipes.  Readable recipes are
scanned as the words they are written with (`lexemes_manuscript`).
-/

namespace Cookbook

open Text

/-! ## Writing recipes -/

/-- A recipe written out, one statement a line. -/
def Recipe.manuscript (r : Recipe) : Text :=
  r.name ++ ofString ".\n\nMethod.\n" ++
    r.instructions.flatMap fun i => i.sentence ++ ofString "\n"

/-- Recipes written out with blank lines between them. -/
def manuscript : List Recipe → Text
  | [] => []
  | [r] => r.manuscript
  | r :: r' :: rs => r.manuscript ++ ofString "\n" ++ manuscript (r' :: rs)

/-- The recipe of a draft before its loops are paired. -/
def Draft.unpaired (d : Draft) : Recipe where
  name := d.title
  ingredients := d.ingredients
  instructions := d.method ++ d.serving

/-! ## Scanning what is written -/

/-- The lexemes of a statement on a line of its own. -/
def Instruction.line (i : Instruction) : List Text :=
  [lineFeed] :: (sentenceLexemes i.sentence ++ [[fullStop]])

/-- The lexemes of a recipe up to the period of its last statement. -/
def Draft.page (d : Draft) : List Text :=
  lexemes d.title ++ [fullStop] :: [lineFeed, lineFeed] :: ofString "Method" :: [fullStop] ::
    (d.method ++ d.serving).flatMap Instruction.line

/-- The lexemes of recipes with blank lines between them. -/
def pages : List Draft → List Text
  | [] => []
  | [d] => d.page ++ [[lineFeed]]
  | d :: d' :: ds => d.page ++ [lineFeed, lineFeed] :: pages (d' :: ds)

section

variable {ws : List Text} {r : Text}

theorem lexemes_spaced_fullStop (h : ∀ w ∈ ws, w.IsPlain) :
    lexemes (spaced ws ++ fullStop :: r) = ws ++ [fullStop] :: lexemes r := by
  have hstop : lexemes (fullStop :: r) = [fullStop] :: lexemes r :=
    lexemes_append (l := [fullStop]) (.inr (.inl rfl)) (Token.lexemeOf_fullStop r)
  rw [lexemes_spaced_append (spelled_of_isPlain h) (by simp), hstop]

/-- A gap ends where the first word begins. -/
theorem lexemes_gap_append {g : Text} (hg : g.IsGap) (hne : ws ≠ []) (h : ∀ w ∈ ws, w.IsPlain) :
    lexemes (g ++ (spaced ws ++ r)) = g :: lexemes (spaced ws ++ r) := by
  refine lexemes_append (.inr (.inr hg)) (Token.lexemeOf_append_of_isGap hg ?_)
  obtain ⟨w, ws, rfl⟩ := List.exists_cons_of_ne_nil hne
  have hw := (h w (by simp)).isWordy
  obtain ⟨b, l, rfl⟩ := List.exists_cons_of_ne_nil hw.1
  have hwhite : isWhite b = false := isWhite_of_isWordByte (hw.2 b (by simp))
  cases ws <;> simp [spaced, hwhite]

theorem isGap_lineFeed : Text.IsGap [lineFeed] :=
  ⟨rfl, rfl, List.forall_mem_singleton.2 (by decide)⟩

theorem isGap_blankLine : Text.IsGap [lineFeed, lineFeed] := by
  have hwhite : isWhite lineFeed := by decide
  exact ⟨rfl, rfl, by simp [hwhite]⟩

theorem lexemes_lineFeed : lexemes [lineFeed] = [[lineFeed]] := by
  have happ := lexemes_append (l := [lineFeed]) (r := []) (.inr (.inr isGap_lineFeed))
    (Token.lexemeOf_append_of_isGap isGap_lineFeed (by simp))
  rwa [lexemes_nil, List.append_nil] at happ

/-- Statements on lines of their own are scanned one by one. -/
theorem lexemes_lines {is : List Instruction} (h : ∀ i ∈ is, i.IsWritten) :
    lexemes (is.flatMap (fun i => lineFeed :: i.sentence) ++ r) =
      is.flatMap Instruction.line ++ lexemes r := by
  induction is with
  | nil => rfl
  | cons i is ih =>
    rw [List.forall_mem_cons] at h
    obtain ⟨hi, his⟩ := h
    have hline : (i :: is).flatMap (fun i => lineFeed :: i.sentence) ++ r =
        [lineFeed] ++ (spaced (sentenceLexemes i.sentence) ++ fullStop ::
          (is.flatMap (fun i => lineFeed :: i.sentence) ++ r)) := by
      rw [List.flatMap_cons]
      conv => lhs; rw [hi.sentence_eq]
      simp
    rw [hline, lexemes_gap_append isGap_lineFeed hi.ne_nil hi.isPlain,
      lexemes_spaced_fullStop hi.isPlain, ih his, List.flatMap_cons, Instruction.line]
    simp

end

/-- The number of diners is written as a statement of its own. -/
theorem sentenceLexemes_serve {n : Int64} (hn : 1 ≤ n) :
    sentenceLexemes ({ action := .serve, count := some n } : Instruction).sentence =
        [ofString "Serves", Decimal.ofInt64 n] ∧
      ({ action := .serve, count := some n } : Instruction).IsWritten := by
  have hplain : ∀ w ∈ [ofString "Serves", Decimal.ofInt64 n], w.IsPlain :=
    List.forall_mem_cons.2 ⟨by decide, List.forall_mem_singleton.2
      (Decimal.isPlain_ofInt64 (Int64.le_trans (by decide) hn))⟩
  have hsentence : ({ action := .serve, count := some n } : Instruction).sentence =
      spaced [ofString "Serves", Decimal.ofInt64 n] ++ [fullStop] := rfl
  have hstop : [fullStop] ∉ [ofString "Serves", Decimal.ofInt64 n] :=
    fun hmem => (hplain _ hmem).ne_fullStop rfl
  have hlex := sentenceLexemes_spaced (spelled_of_isPlain hplain) hstop
  rw [← hsentence] at hlex
  refine ⟨hlex, ?_, ?_, ?_⟩ <;> rw [hlex]
  · simp
  · exact hplain
  · exact hsentence

/-- Lines that are ended are lines that are begun. -/
theorem flatMap_lines (line : α → Text) (l : List α) (r : Text) :
    lineFeed :: (l.flatMap (fun a => line a ++ [lineFeed]) ++ r) =
      l.flatMap (fun a => lineFeed :: line a) ++ lineFeed :: r := by
  induction l with
  | nil => rfl
  | cons a l ih =>
    rw [List.flatMap_cons, List.flatMap_cons, List.append_assoc _ _ (lineFeed :: r), ← ih]
    simp

namespace Draft

variable {d : Draft}

theorem Readable.isWritten (h : d.Readable) : ∀ i ∈ d.method ++ d.serving, i.IsWritten := by
  refine List.forall_mem_append.2 ⟨fun i hi => (h.sayable i hi).toIsWritten, ?_⟩
  unfold serving
  cases hserves : d.serves with
  | none => simp
  | some n => exact List.forall_mem_singleton.2 (sentenceLexemes_serve (h.diners n hserves)).2

/-- The pieces that a readable recipe is written with. -/
theorem Readable.manuscript_append (h : d.Readable) (r : Text) :
    d.unpaired.manuscript ++ r =
      spaced (lexemes d.title) ++ fullStop :: ([lineFeed, lineFeed] ++
        (spaced [ofString "Method"] ++ fullStop ::
          ((d.method ++ d.serving).flatMap (fun i => lineFeed :: i.sentence) ++
            lineFeed :: r))) := by
  have hheading : ofString ".\n\nMethod.\n" = fullStop :: ([lineFeed, lineFeed] ++
      (spaced [ofString "Method"] ++ [fullStop, lineFeed])) := by decide
  have htitle : d.unpaired.name = spaced (lexemes d.title) := h.title.eq_spaced
  have hbreak : ofString "\n" = [lineFeed] := rfl
  rw [Recipe.manuscript, hheading, hbreak, htitle]
  simp only [unpaired, List.append_assoc, List.cons_append, List.nil_append, flatMap_lines]

/-- A readable recipe is scanned as its words, up to its last line break. -/
theorem Readable.lexemes_manuscript_append (h : d.Readable) (r : Text) :
    lexemes (d.unpaired.manuscript ++ r) = d.page ++ lexemes (lineFeed :: r) := by
  have hmethod : ∀ w ∈ [ofString "Method"], w.IsPlain := List.forall_mem_singleton.2 (by decide)
  rw [h.manuscript_append, lexemes_spaced_fullStop h.title.isPlain,
    lexemes_gap_append isGap_blankLine (by simp) hmethod, lexemes_spaced_fullStop hmethod,
    lexemes_lines h.isWritten, page]
  simp

theorem Readable.noNul_manuscript (h : d.Readable) : (0 : UInt8) ∉ d.unpaired.manuscript := by
  have htitle : (0 : UInt8) ∉ d.title := by
    rw [h.title.eq_spaced]
    exact (spelled_of_isPlain h.title.isPlain).noNul_spaced
  have hsentence : ∀ i ∈ d.method ++ d.serving, (0 : UInt8) ∉ i.sentence := by
    intro i hi
    have hwritten := h.isWritten i hi
    rw [hwritten.sentence_eq, List.mem_append, not_or]
    exact ⟨(spelled_of_isPlain hwritten.isPlain).noNul_spaced, by decide⟩
  have hheading : (0 : UInt8) ∉ ofString ".\n\nMethod.\n" := by decide
  have hbreak : (0 : UInt8) ∉ ofString "\n" := by decide
  simp only [Recipe.manuscript, unpaired, List.mem_append, List.mem_flatMap, not_or, not_exists]
  refine ⟨⟨htitle, hheading⟩, fun i hi => ?_⟩
  have hmem : (0 : UInt8) ∉ i.sentence := hsentence i (List.mem_append.2 hi.1)
  exact (hi.2.elim hmem hbreak).elim

/-- Recipes begin with the title of the first. -/
theorem Readable.exists_manuscript_eq (h : d.Readable) (ds : List Draft) :
    ∃ r, Cookbook.manuscript ((d :: ds).map unpaired) = spaced (lexemes d.title) ++ r := by
  cases ds with
  | nil => exact ⟨_, (List.append_nil _).symm.trans (h.manuscript_append [])⟩
  | cons d' ds =>
    rw [List.map_cons, List.map_cons, Cookbook.manuscript, List.append_assoc]
    exact ⟨_, h.manuscript_append _⟩

end Draft

/-- Readable recipes are scanned as the words they are written with. -/
theorem lexemes_manuscript {ds : List Draft} (h : ∀ d ∈ ds, d.Readable) :
    lexemes (manuscript (ds.map Draft.unpaired)) = pages ds := by
  induction ds with
  | nil => exact lexemes_nil
  | cons d ds ih =>
    rw [List.forall_mem_cons] at h
    cases ds with
    | nil =>
      have hd := h.1.lexemes_manuscript_append []
      rw [lexemes_lineFeed, List.append_nil] at hd
      exact hd
    | cons d' ds =>
      have hd' : d'.Readable := h.2 d' (by simp)
      obtain ⟨r, hr⟩ := hd'.exists_manuscript_eq ds
      have hgap : lexemes (lineFeed :: lineFeed :: manuscript ((d' :: ds).map Draft.unpaired)) =
          [lineFeed, lineFeed] :: pages (d' :: ds) := by
        rw [← ih h.2, hr]
        exact lexemes_gap_append isGap_blankLine hd'.title.ne_nil hd'.title.isPlain
      have hd := h.1.lexemes_manuscript_append
        (lineFeed :: manuscript ((d' :: ds).map Draft.unpaired))
      rw [hgap] at hd
      rw [pages, ← hd, List.map_cons, List.map_cons, manuscript, List.append_assoc]
      rfl

theorem noNul_manuscript {ds : List Draft} (h : ∀ d ∈ ds, d.Readable) :
    (0 : UInt8) ∉ manuscript (ds.map Draft.unpaired) := by
  induction ds with
  | nil => simp [manuscript]
  | cons d ds ih =>
    rw [List.forall_mem_cons] at h
    have hd := h.1.noNul_manuscript
    cases ds with
    | nil => exact hd
    | cons d' ds =>
      have hbreak : (0 : UInt8) ∉ ofString "\n" := by decide
      rw [List.map_cons, List.map_cons, manuscript, List.mem_append, List.mem_append]
      rintro ((h0 | h0) | h0)
      · exact hd h0
      · exact hbreak h0
      · exact ih h.2 h0

end Cookbook
