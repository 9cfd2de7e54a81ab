import Cookbook.Proofs.Token.Seam

/-!
# Cookbook.Proofs.Token.LineEnds

Line feeds with a carriage return in front of each (`Text.crlf`).  A carriage
return is a blank, so it ends words and numbers where the line feed does, it
does not count in the column of what stands on the next line, and in front of a
break it belongs to the blanks.  The tokens are therefore the same, one by one,
but for how the ends of lines are spelled and the column at which they begin
(`Token.Returned`, `scan_crlf`).
-/

namespace Cookbook

open Text

/-! ## Carriage returns -/

namespace Text

/-- The byte that some systems put in front of a line feed. -/
def carriageReturn : UInt8 := 13

/-- A text with a carriage return in front of every line feed. -/
def crlf (t : Text) : Text :=
  t.flatMap fun b => if b = lineFeed then [carriageReturn, lineFeed] else [b]

variable {t : Text} {b : UInt8}

@[simp] theorem crlf_nil : crlf [] = [] := rfl

@[simp] theorem crlf_append (s t : Text) : crlf (s ++ t) = crlf s ++ crlf t := by simp [crlf]

@[simp] theorem crlf_cons_lineFeed (t : Text) :
    crlf (lineFeed :: t) = carriageReturn :: lineFeed :: crlf t := by
  simp [crlf]

@[simp] theorem crlf_cons_of_ne (h : b ≠ lineFeed) (t : Text) : crlf (b :: t) = b :: crlf t := by
  simp [crlf, h]

theorem crlf_eq_self (h : lineFeed ∉ t) : crlf t = t := by
  induction t with
  | nil => rfl
  | cons b t ih =>
    rw [List.mem_cons, not_or] at h
    rw [crlf_cons_of_ne (Ne.symm h.1), ih h.2]

theorem crlf_eq_self_of_isWordy (h : t.IsWordy) : crlf t = t :=
  crlf_eq_self fun hmem => ne_lineFeed_of_isWordByte (h.2 _ hmem) rfl

theorem mem_of_mem_crlf (h : b ∈ crlf t) : b ∈ t ∨ b = carriageReturn := by
  obtain ⟨c, hc, hb⟩ := List.mem_flatMap.1 h
  by_cases hfeed : c = lineFeed
  · rw [if_pos hfeed, List.mem_pair] at hb
    rcases hb with hb | hb
    · exact .inr hb
    · exact .inl (hb ▸ hfeed ▸ hc)
  · rw [if_neg hfeed, List.mem_singleton] at hb
    exact .inl (hb ▸ hc)

theorem count_crlf (t : Text) : (crlf t).count lineFeed = t.count lineFeed := by
  have hreturn : carriageReturn ≠ lineFeed := by decide
  induction t with
  | nil => rfl
  | cons b t ih =>
    by_cases hb : b = lineFeed
    · rw [hb, crlf_cons_lineFeed, List.count_cons_of_ne hreturn, List.count_cons_self,
        List.count_cons_self, ih]
    · rw [crlf_cons_of_ne hb, List.count_cons_of_ne hb, List.count_cons_of_ne hb, ih]

theorem getLast?_crlf (t : Text) : (crlf t).getLast? = t.getLast? := by
  induction t using List.reverseRecOn with
  | nil => rfl
  | append_singleton t b =>
    by_cases hb : b = lineFeed
    · simp [hb]
    · simp [hb]

/-- What goes on across line feeds and carriage returns goes on as far. -/
theorem takeWhile_crlf {p : UInt8 → Bool} (hfeed : p lineFeed) (hreturn : p carriageReturn)
    (t : Text) : (crlf t).takeWhile p = crlf (t.takeWhile p) := by
  induction t with
  | nil => rfl
  | cons b t ih =>
    by_cases hb : b = lineFeed
    · rw [hb, crlf_cons_lineFeed, List.takeWhile_cons_of_pos hreturn,
        List.takeWhile_cons_of_pos hfeed, List.takeWhile_cons_of_pos hfeed, crlf_cons_lineFeed, ih]
    · rw [crlf_cons_of_ne hb]
      by_cases hpb : p b
      · rw [List.takeWhile_cons_of_pos hpb, List.takeWhile_cons_of_pos hpb, crlf_cons_of_ne hb, ih]
      · rw [List.takeWhile_cons_of_neg hpb, List.takeWhile_cons_of_neg hpb, crlf_nil]

theorem untilNul_crlf (t : Text) : (crlf t).untilNul = crlf t.untilNul :=
  takeWhile_crlf (by decide) (by decide) t

/-- What ends a word ends it with carriage returns too. -/
theorem isWordByte_head_crlf (h : ∀ b, t.head? = some b → isWordByte b = false) :
    ∀ b, (crlf t).head? = some b → isWordByte b = false := by
  intro b hb
  cases t with
  | nil => cases hb
  | cons c t =>
    by_cases hc : c = lineFeed
    · rw [hc, crlf_cons_lineFeed, List.head?_cons, Option.some.injEq] at hb
      exact hb ▸ by decide
    · rw [crlf_cons_of_ne hc, List.head?_cons, Option.some.injEq] at hb
      exact hb ▸ h c rfl

/-- In front of a gap there is a carriage return; the rest is a gap with as many
lines. -/
theorem IsGap.exists_crlf (h : t.IsGap) :
    ∃ v : Text, crlf t = carriageReturn :: v ∧ v.IsGap ∧ v.count lineFeed = t.count lineFeed := by
  obtain ⟨hhead, hlast, hwhite⟩ := h
  obtain ⟨r, rfl⟩ := List.head?_eq_some_iff.1 hhead
  have hcrlf := crlf_cons_lineFeed r
  have hcount := count_crlf (lineFeed :: r)
  rw [hcrlf, List.count_cons_of_ne (by decide)] at hcount
  refine ⟨lineFeed :: crlf r, hcrlf, ⟨rfl, ?_, fun b hb => ?_⟩, hcount⟩
  · rwa [← getLast?_crlf, hcrlf, List.getLast?_cons_cons] at hlast
  · have hmem : b ∈ crlf (lineFeed :: r) := hcrlf ▸ List.mem_cons_of_mem carriageReturn hb
    rcases mem_of_mem_crlf hmem with hb | rfl
    · exact hwhite b hb
    · decide

end Text

/-- A carriage return in front of a line feed does not count. -/
theorem Location.past_crlf (l : Location) (t : Text) : l.past (crlf t) = l.past t := by
  induction t generalizing l with
  | nil => rfl
  | cons b t ih =>
    by_cases hb : b = lineFeed
    · have hstep : (l.step carriageReturn).step lineFeed = l.step lineFeed := rfl
      rw [hb, crlf_cons_lineFeed]
      show ((l.step carriageReturn).step lineFeed).past (crlf t) = (l.step lineFeed).past t
      rw [hstep, ih]
    · rw [crlf_cons_of_ne hb]
      exact ih (l.step b)

/-! ## Tokens -/

/-- Whether a token is what becomes of another one where carriage returns are put
in front of line feeds: an end of a line is spelled with them, the first among
the blanks, and so begins a column further to the right. -/
structure Token.Returned (u t : Token) : Prop where
  kind : u.kind = t.kind
  same : t.isLineEnd = false → u = t
  lineEnd : t.isLineEnd → carriageReturn :: u.lexeme = t.lexeme.crlf ∧
    u.blanks = t.blanks ++ [carriageReturn] ∧
    u.location = { t.location with col := t.location.col + 1 }

namespace Token

variable {l : Location} {g w r : Text}

theorem returned_refl {t : Token} (h : t.isLineEnd = false) : t.Returned t :=
  ⟨rfl, fun _ => rfl, fun hend => absurd hend (by simp [h])⟩

/-- A break takes the carriage return among its blanks. -/
theorem returned_of_isGap {v : Text} (hw : w.IsGap) (hv : v.IsGap)
    (hcrlf : w.crlf = carriageReturn :: v) (hcount : v.count lineFeed = w.count lineFeed)
    (l : Location) (g : Text) :
    Returned { kind := .ofLexeme v, lexeme := v, location := l.past (g ++ [carriageReturn]),
               blanks := g ++ [carriageReturn] }
      { kind := .ofLexeme w, lexeme := w, location := l.past g, blanks := g } where
  kind := by rw [Kind.ofLexeme_of_isGap hv, Kind.ofLexeme_of_isGap hw, hcount]
  same hend := by
    have hgap : (ofLexeme w).isLineEnd := (isLineEnd_ofLexeme_iff (.inr (.inr hw))).2 hw
    exact absurd (hgap.symm.trans hend) (by decide)
  lineEnd _ := ⟨hcrlf.symm, rfl, by rw [Location.past_append]; rfl⟩

/-- Wherever a text begins, carriage returns in front of its line feeds change
nothing but its ends of lines. -/
theorem scanFrom_crlf (l : Location) (t : Text) :
    List.Forall₂ Returned (scanFrom l t.crlf) (scanFrom l t) := by
  have hblanks {g : Text} (hg : ∀ b ∈ g, isBlank b) : g.crlf = g :=
    crlf_eq_self fun hmem => absurd (hg _ hmem) (by decide)
  induction t using lexeme_induction generalizing l with
  | blank t hblank =>
    rw [hblanks hblank, scanFrom_of_blank hblank]
    exact .cons (returned_refl rfl) .nil
  | lexeme g w r hg hw hend ih =>
    have htail := ih (l.past (g ++ w))
    rw [crlf_append, crlf_append, hblanks hg, scanFrom_of_lexeme hg hw hend]
    rcases hw with hword | rfl | hgap
    · have hend' : lexemeOf (w ++ r.crlf) = w := lexemeOf_append_of_isWordy hword
        (isWordByte_head_crlf fun b => isWordByte_head_of_lexemeOf hword hend)
      rw [crlf_eq_self_of_isWordy hword, scanFrom_of_lexeme hg (.inl hword) hend']
      refine .cons (returned_refl ?_) htail
      have hnot := mt (isLineEnd_ofLexeme_iff (.inl hword)).1 (not_isGap_of_isWordy hword)
      exact Bool.eq_false_iff.2 hnot
    · have hstop : crlf [fullStop] = [fullStop] := rfl
      rw [hstop, scanFrom_of_lexeme hg (.inr (.inl rfl)) (lexemeOf_fullStop _)]
      exact .cons (returned_refl rfl) htail
    · obtain ⟨v, hcrlf, hv, hcount⟩ := hgap.exists_crlf
      have hg' : ∀ b ∈ g ++ [carriageReturn], isBlank b :=
        List.forall_mem_append.2 ⟨hg, List.forall_mem_singleton.2 (by decide)⟩
      have hend' : lexemeOf (v ++ r.crlf) = v := by
        refine lexemeOf_append_of_isGap hv fun hmem => ?_
        rw [takeWhile_crlf (by decide) (by decide)] at hmem
        -- no line feed is new
        rcases mem_of_mem_crlf hmem with hmem | hreturn
        · exact lineFeed_not_mem_of_isGap hgap hend hmem
        · exact absurd hreturn (by decide)
      have hsplit : g ++ (w.crlf ++ r.crlf) = g ++ [carriageReturn] ++ (v ++ r.crlf) := by
        simp [hcrlf]
      have hplace : l.past (g ++ [carriageReturn] ++ v) = l.past (g ++ w) := by
        rw [← Location.past_crlf l (g ++ w), crlf_append, hblanks hg, hcrlf, List.append_assoc,
          List.singleton_append]
      rw [hsplit, scanFrom_of_lexeme hg' (.inr (.inr hv)) hend', hplace]
      exact .cons (returned_of_isGap hgap hv hcrlf hcount l g) htail

/-- Carriage returns in front of line feeds change nothing but the ends of
lines. -/
theorem scan_crlf (t : Text) : List.Forall₂ Returned (scan t.crlf) (scan t) := by
  have hscan (t : Text) : scan t = scanFrom .start t.untilNul := rfl
  rw [hscan, hscan, untilNul_crlf]
  exact scanFrom_crlf .start t.untilNul

end Token

end Cookbook
