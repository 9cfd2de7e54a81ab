import Mathlib.Data.List.Forall2
import Cookbook.Proofs.Draft.Layout
import Cookbook.Proofs.Phrase.Notes

/-!
# Cookbook.Proofs.Draft.Likeness

The parts of a recipe are laid out in kinds and lexemes.  Where a token stands,
the blanks in front of it and how an end of a line is spelled do not count
(`Token.Alike`): tokens that are alike are laid out in the same parts and stand
for the same.  Only a title and a statement tell where they were written, and
only a comment tells how.
-/

namespace Cookbook

open Text

/-! ## Tokens -/

/-- Whether a token may stand for another one.  Ends of lines of one kind may be
spelled in different ways. -/
structure Token.Alike (u t : Token) : Prop where
  kind : u.kind = t.kind
  lexeme : u.lexeme = t.lexeme ∨ t.isLineEnd ∧ lineFeed ∈ u.lexeme ∧ lineFeed ∈ t.lexeme

namespace Token.Alike

variable {t u : Token}

theorem isBreak_eq (h : Alike u t) : u.isBreak = t.isBreak := by
  simp only [Token.isBreak, h.kind]

theorem isLineEnd_eq (h : Alike u t) : u.isLineEnd = t.isLineEnd := by
  simp only [Token.isLineEnd, h.kind]

theorem isStray_eq (h : Alike u t) : u.isStray = t.isStray := by
  simp only [Token.isStray, h.kind]

/-- Two tokens that are alike hold the same words. -/
theorem lexeme_eq_iff (h : Alike u t) {w : Text} (hw : lineFeed ∉ w) :
    u.lexeme = w ↔ t.lexeme = w := by
  rcases h.lexeme with heq | ⟨-, hu, ht⟩
  · rw [heq]
  · constructor
    · rintro rfl
      exact absurd hu hw
    · rintro rfl
      exact absurd ht hw

theorem bare_eq (h : Alike u t) (ht : t.isLineEnd = false) : u.bare = t.bare := by
  rcases h.lexeme with heq | ⟨hend, -⟩
  · simp only [Token.bare, h.kind, heq]
  · rw [ht] at hend
    cases hend

end Token.Alike

section

variable {ts us : List Token}

/-- What stands for tokens in two parts has two parts. -/
theorem exists_append_of_forall₂ {R : α → β → Prop} {us : List α} {ts ts' : List β}
    (h : List.Forall₂ R us (ts ++ ts')) :
    ∃ vs vs', us = vs ++ vs' ∧ List.Forall₂ R vs ts ∧ List.Forall₂ R vs' ts' :=
  ⟨_, _, (List.take_append_drop ts.length us).symm, List.forall₂_take_append us ts ts' h,
    List.forall₂_drop_append us ts ts' h⟩

/-- A property of tokens that are alike is one of all of them. -/
theorem forall_mem_of_alike {P : Token → Prop} (hP : ∀ {u t : Token}, u.Alike t → P t → P u)
    (h : List.Forall₂ Token.Alike us ts) (hts : ∀ t ∈ ts, P t) : ∀ u ∈ us, P u := by
  induction h with
  | nil => simp
  | cons hhead _ ih =>
    rw [List.forall_mem_cons] at hts ⊢
    exact ⟨hP hhead hts.1, ih hts.2⟩

theorem map_bare_of_alike (h : List.Forall₂ Token.Alike us ts)
    (hts : ∀ t ∈ ts, t.isLineEnd = false) : us.map Token.bare = ts.map Token.bare := by
  induction h with
  | nil => rfl
  | cons hhead _ ih =>
    rw [List.forall_mem_cons] at hts
    rw [List.map_cons, List.map_cons, hhead.bare_eq hts.1, ih hts.2]

theorem isLineEnd_of_not_isBreak {t : Token} (h : t.isBreak = false) : t.isLineEnd = false := by
  cases t with
  | mk kind => cases kind <;> first | rfl | cases h

theorem join_of_alike (h : List.Forall₂ Token.Alike us ts)
    (hts : ∀ t ∈ ts, t.isBreak = false ∧ t.isStray = false) : Token.join us = Token.join ts := by
  have hbare := map_bare_of_alike h fun t ht => isLineEnd_of_not_isBreak (hts t ht).1
  rw [← Token.join_map_bare, hbare, Token.join_map_bare]

theorem plain_of_alike (h : List.Forall₂ Token.Alike us ts)
    (hts : ∀ t ∈ ts, t.isBreak = false ∧ t.isStray = false) :
    ∀ u ∈ us, u.isBreak = false ∧ u.isStray = false := by
  refine forall_mem_of_alike (fun hut ht => ?_) h hts
  rwa [hut.isBreak_eq, hut.isStray_eq]

end

/-- A sentence asks for the same wherever it stands. -/
theorem read_of_map_bare {t u : Token} {ts us : List Token} {i : Instruction}
    (hbare : (u :: us).map Token.bare = (t :: ts).map Token.bare)
    (h : Instruction.read (t :: ts) = .ok (some i)) :
    Instruction.read (u :: us) = .ok (some { i with location := u.location }) := by
  have hfind : Phrase.find? (u :: us) = Phrase.find? (t :: ts) := by
    rw [← Phrase.find?_map_bare, hbare, Phrase.find?_map_bare]
  simp only [Instruction.read] at h ⊢
  rw [hfind]
  cases hp : Phrase.find? (t :: ts) with
  | none => simp [hp] at h
  | some found =>
    obtain ⟨p, c⟩ := found
    simp only [hp] at h ⊢
    cases hobj : p.objection? c with
    | some cause => simp [hobj] at h
    | none =>
      simp only [hobj, Except.ok.injEq, Option.some.injEq] at h ⊢
      rw [← h]
      rfl

namespace Layout

variable {ts us : List Token}

theorem Optional.alike {part : List Token → α → Prop} {absent a : α} (h : Optional part absent ts a)
    (hlike : List.Forall₂ Token.Alike us ts)
    (hpart : ∀ {us ts a}, part ts a → List.Forall₂ Token.Alike us ts → part us a) :
    Optional part absent us a := by
  cases h with
  | here h => exact .here (hpart h hlike)
  | missing =>
    cases hlike
    exact .missing

theorem Gap.alike (h : Gap ts) (hlike : List.Forall₂ Token.Alike us ts) : Gap us := by
  cases h with
  | none =>
    cases hlike
    exact .none
  | one ht =>
    obtain _ | ⟨hu, ⟨⟩⟩ := hlike
    exact .one (hu.isLineEnd_eq.trans ht)

/-! ## Title and comment -/

theorem Title.alike {name : Text} {l : Location} (h : Title ts name l)
    (hlike : List.Forall₂ Token.Alike us ts) : ∃ l', Title us name l' := by
  cases h with
  | @intro first stop others hwords hstop =>
    rw [← List.cons_append] at hlike
    obtain ⟨words, back, rfl, hlikewords, hback⟩ := exists_append_of_forall₂ hlike
    obtain _ | ⟨hu, ⟨⟩⟩ := hback
    rw [← join_of_alike hlikewords hwords]
    have hplain := plain_of_alike hlikewords hwords
    cases hlikewords with
    | cons => exact ⟨_, .intro hplain (hu.kind.trans hstop)⟩

theorem Comment.alike {text : Text} (h : Comment ts text)
    (hlike : List.Forall₂ Token.Alike us ts) : ∃ text', Comment us text' := by
  cases h with
  | @intro ts blank hts hblank =>
    obtain ⟨vs, back, rfl, hvs, hback⟩ := exists_append_of_forall₂ hlike
    obtain _ | ⟨hu, ⟨⟩⟩ := hback
    refine ⟨_, .intro (forall_mem_of_alike (fun hut ht => ?_) hvs hts) (hu.kind.trans hblank)⟩
    rwa [hut.kind]

/-! ## Ingredients -/

theorem Quantity.alike {rest rest' : List Token} {v : Option Int64} (h : Quantity ts rest v)
    (hlike : List.Forall₂ Token.Alike us ts) (hrest : List.Forall₂ Token.Alike rest' rest) :
    Quantity us rest' v := by
  cases h with
  | number ht =>
    obtain _ | ⟨hu, ⟨⟩⟩ := hlike
    exact .number (hu.kind.trans ht)
  | none hnumber =>
    cases hlike
    refine .none fun u n hu => ?_
    cases hrest with
    | nil => cases hu
    | @cons u' t _ _ hut =>
      obtain rfl : u' = u := by simpa using hu
      rw [hut.kind]
      exact hnumber t n rfl

theorem heaps_iff {t u : Token} (h : u.Alike t) : Heaps u ↔ Heaps t := by
  rw [Heaps, Heaps, h.lexeme_eq_iff (by decide), h.lexeme_eq_iff (by decide)]

/-- The words of an ingredient hold no end of a line, so they are the same. -/
theorem Measure.alike {name name' : List Token} {kind : Ingredient.Kind} (h : Measure ts name kind)
    (hlike : List.Forall₂ Token.Alike us ts) (hname : List.Forall₂ Token.Alike name' name)
    (hplain : ∀ t ∈ ts ++ name, t.isBreak = false ∧ t.isStray = false) :
    Measure us name' kind := by
  have hlexeme {t u : Token} (hut : u.Alike t) (ht : t ∈ ts ++ name) : u.lexeme = t.lexeme :=
    congrArg (·.lexeme) (hut.bare_eq (isLineEnd_of_not_isBreak (hplain t ht).1))
  cases h with
  | @heaped h m _ kind hh hm =>
    obtain _ | ⟨hh', _ | ⟨hm', ⟨⟩⟩⟩ := hlike
    exact .heaped ((heaps_iff hh').2 hh) (by rwa [hlexeme hm' (by simp)])
  | @word m _ kind hh hm =>
    obtain _ | ⟨hm', ⟨⟩⟩ := hlike
    exact .word (mt (heaps_iff hm').1 hh) (by rwa [hlexeme hm' (by simp)])
  | @none t others hh hm =>
    cases hlike
    obtain _ | ⟨ht', hothers⟩ := hname
    refine .none (mt (heaps_iff ht').1 hh) ?_
    rw [hlexeme ht' (by simp)]
    refine hm.imp_right ?_
    rintro rfl
    exact List.forall₂_nil_right_iff.1 hothers

theorem Line.alike {i : Ingredient} (h : Line ts i) (hlike : List.Forall₂ Token.Alike us ts) :
    Line us i := by
  cases h with
  | @intro quantity measure name value kind hplain hquantity hmeasure hname =>
    have hplain' := plain_of_alike hlike hplain
    obtain ⟨quantity', rest, rfl, hquantity', hrest⟩ := exists_append_of_forall₂ hlike
    obtain ⟨measure', name', rfl, hmeasure', hname'⟩ := exists_append_of_forall₂ hrest
    have hback := (List.forall_mem_append.1 hplain).2
    rw [← join_of_alike hname' (List.forall_mem_append.1 hback).2]
    refine .intro hplain' (hquantity.alike hquantity' hrest)
      (hmeasure.alike hmeasure' hname' hback) ?_
    rintro rfl
    exact hname (List.forall₂_nil_left_iff.1 hname')

theorem Lines.alike {is : List Ingredient} (h : Lines ts is)
    (hlike : List.Forall₂ Token.Alike us ts) : Lines us is := by
  induction h generalizing us with
  | last h => exact .last (h.alike hlike)
  | cons h hbr _ ih =>
    obtain ⟨line, back, rfl, hline, hback⟩ := exists_append_of_forall₂ hlike
    obtain _ | ⟨hu, hrest⟩ := hback
    exact .cons (h.alike hline) (hu.kind.trans hbr) (ih hrest)

theorem Ingredients.alike {is : List Ingredient} (h : Ingredients ts is)
    (hlike : List.Forall₂ Token.Alike us ts) : Ingredients us is := by
  cases h with
  | intro hheading hstop hbr hlines hblank =>
    obtain _ | ⟨hheading', _ | ⟨hstop', _ | ⟨hbr', hback⟩⟩⟩ := hlike
    obtain ⟨lines, _, rfl, hlines', hback⟩ := exists_append_of_forall₂ hback
    obtain _ | ⟨hblank', ⟨⟩⟩ := hback
    exact .intro (hheading'.kind.trans hheading) (hstop'.kind.trans hstop) (hbr'.kind.trans hbr)
      (hlines.alike hlines') (hblank'.kind.trans hblank)

/-! ## Cooking time and oven -/

theorem CookingTime.alike {v : Option Int64} (h : CookingTime ts v)
    (hlike : List.Forall₂ Token.Alike us ts) : CookingTime us v := by
  cases h with
  | @intro cooking time number unit stop br n hcooking htime hnumber hunit hstop hbr =>
    obtain _ | ⟨hcooking', _ | ⟨htime', _ | ⟨hnumber', hback⟩⟩⟩ := hlike
    obtain _ | ⟨hunit', _ | ⟨hstop', _ | ⟨hbr', ⟨⟩⟩⟩⟩ := hback
    have hunits : ∀ w ∈ [ofString "minute", "minutes", "hour", "hours"], lineFeed ∉ w := by decide
    refine .intro ((hcooking'.lexeme_eq_iff (by decide)).2 hcooking)
      ((htime'.lexeme_eq_iff (by decide)).2 htime) (hnumber'.kind.trans hnumber) ?_
      (hstop'.kind.trans hstop) (hbr'.isLineEnd_eq.trans hbr)
    rwa [(hunit'.lexeme_eq_iff (hunits _ hunit)).2 rfl]

/-- A numeral is written on one line. -/
theorem Numeral.lineFeed_notMem {digits : Text} {n : Int} (h : Numeral digits n) :
    lineFeed ∉ digits := by
  have hdigits {ds : Text} (hds : ds.all isDigit) : lineFeed ∉ ds := fun hmem =>
    absurd (List.all_eq_true.1 hds _ hmem) (by decide)
  cases h with
  | natural _ hds => exact hdigits hds
  | negative _ hds =>
    rw [List.mem_cons, not_or]
    exact ⟨by decide, hdigits hds⟩

theorem GasMark.alike {v : Option Int64} (h : GasMark ts v)
    (hlike : List.Forall₂ Token.Alike us ts) : GasMark us v := by
  cases h with
  | @intro gas mark number digits n hgas hmark hnumber hn =>
    obtain _ | ⟨hgas', _ | ⟨hmark', _ | ⟨hnumber', ⟨⟩⟩⟩⟩ := hlike
    have hline : lineFeed ∉ digits ++ ofString ")" := by
      rw [List.mem_append, not_or]
      exact ⟨hn.lineFeed_notMem, by decide⟩
    exact .intro ((hgas'.lexeme_eq_iff (by decide)).2 hgas)
      ((hmark'.lexeme_eq_iff (by decide)).2 hmark) ((hnumber'.lexeme_eq_iff hline).2 hnumber) hn

theorem Oven.alike {v : Option Int64 × Option Int64} (h : Oven ts v)
    (hlike : List.Forall₂ Token.Alike us ts) : Oven us v := by
  cases h with
  | intro hpreheat hoven htowards hnumber hdegrees hcelsius hgas hstop hbr =>
    obtain _ | ⟨hpreheat', _ | ⟨hoven', _ | ⟨htowards', hback⟩⟩⟩ := hlike
    obtain _ | ⟨hnumber', _ | ⟨hdegrees', _ | ⟨hcelsius', hback⟩⟩⟩ := hback
    obtain ⟨gas, _, rfl, hgas', hback⟩ := exists_append_of_forall₂ hback
    obtain _ | ⟨hstop', _ | ⟨hbr', ⟨⟩⟩⟩ := hback
    exact .intro ((hpreheat'.lexeme_eq_iff (by decide)).2 hpreheat)
      ((hoven'.lexeme_eq_iff (by decide)).2 hoven)
      ((htowards'.lexeme_eq_iff (by decide)).2 htowards) (hnumber'.kind.trans hnumber)
      ((hdegrees'.lexeme_eq_iff (by decide)).2 hdegrees)
      ((hcelsius'.lexeme_eq_iff (by decide)).2 hcelsius) (hgas.alike hgas' GasMark.alike)
      (hstop'.kind.trans hstop) (hbr'.isLineEnd_eq.trans hbr)

/-! ## Method and diners -/

theorem Heading.alike (h : Heading ts) (hlike : List.Forall₂ Token.Alike us ts) : Heading us := by
  cases h with
  | intro hheading hstop hbr =>
    obtain _ | ⟨hheading', _ | ⟨hstop', _ | ⟨hbr', ⟨⟩⟩⟩⟩ := hlike
    exact .intro (hheading'.kind.trans hheading) (hstop'.kind.trans hstop) (hbr'.kind.trans hbr)

/-- A sentence with the same words asks for the same. -/
theorem Statement.alike {i : Instruction} (h : Statement ts i)
    (hlike : List.Forall₂ Token.Alike us ts) (hts : ∀ t ∈ ts, t.isLineEnd = false) :
    ∃ j, Statement us j ∧ j.Agrees i := by
  have hbare := map_bare_of_alike hlike hts
  have hexpected : ∀ u ∈ us, u.kind ≠ .period ∧ u.kind ≠ .unexpected :=
    forall_mem_of_alike (fun hut ht => by rwa [hut.kind]) hlike h.expected
  cases hlike with
  | nil => exact ⟨i, h, rfl⟩
  | @cons u t us ts hut _ =>
    refine ⟨_, ⟨read_of_map_bare hbare h.read, hexpected, fun v hv => ?_⟩, rfl⟩
    obtain rfl : u = v := by simpa using hv
    rw [hut.kind]
    exact h.first t rfl

theorem Sentences.alike {is : List Instruction} (h : Sentences ts is)
    (hlike : List.Forall₂ Token.Alike us ts) (hts : ∀ t ∈ ts, t.isLineEnd = false) :
    ∃ js, Sentences us js ∧ js.map Instruction.unplaced = is.map Instruction.unplaced := by
  induction h generalizing us with
  | nil =>
    cases hlike
    exact ⟨[], .nil, rfl⟩
  | cons h hstop _ ih =>
    obtain ⟨run, _, rfl, hrun, hback⟩ := exists_append_of_forall₂ hlike
    obtain _ | ⟨hstop', hrest⟩ := hback
    obtain ⟨hends, hback⟩ := List.forall_mem_append.1 hts
    obtain ⟨j, hj, hagrees⟩ := h.alike hrun hends
    obtain ⟨js, hjs, hall⟩ := ih hrest (List.forall_mem_cons.1 hback).2
    refine ⟨j :: js, .cons hj (hstop'.kind.trans hstop) hjs, ?_⟩
    rw [List.map_cons, List.map_cons, hagrees, hall]

/-- A paragraph without its line breaks holds no end of a line. -/
theorem isLineEnd_of_mem_filter (hts : ∀ t ∈ ts, t.kind ≠ .blankLine) :
    ∀ t ∈ ts.filter (·.kind ≠ .lineBreak), t.isLineEnd = false := by
  intro t ht
  rw [List.mem_filter, decide_eq_true_eq] at ht
  have hblank := hts t ht.1
  unfold Token.isLineEnd
  split <;> simp_all

/-- Statements are the same if they are alike but for the line breaks among
them. -/
theorem Statements.alike {is : List Instruction} (h : Statements ts is)
    (hlike : List.Forall₂ Token.Alike (us.filter (·.kind ≠ .lineBreak))
      (ts.filter (·.kind ≠ .lineBreak)))
    (hts : ∀ t ∈ ts, t.kind ≠ .blankLine) :
    ∃ js, Statements us js ∧ js.map Instruction.unplaced = is.map Instruction.unplaced := by
  obtain ⟨js, hjs, hall⟩ := h.sentences.alike hlike (isLineEnd_of_mem_filter hts)
  refine ⟨js, ⟨?_, hjs⟩, hall⟩
  rintro rfl
  exact h.ne_nil (List.map_eq_nil_iff.1 hall.symm)

theorem Serves.alike {v : Option Int64} (h : Serves ts v)
    (hlike : List.Forall₂ Token.Alike us ts) : Serves us v := by
  cases h with
  | intro hblank hserves hcount hn hstop =>
    obtain ⟨blank, _, rfl, hblank', hback⟩ := exists_append_of_forall₂ hlike
    obtain _ | ⟨hserves', _ | ⟨hcount', _ | ⟨hstop', ⟨⟩⟩⟩⟩ := hback
    refine .intro ?_ (hserves'.kind.trans hserves) (hcount'.kind.trans hcount) hn
      (hstop'.kind.trans hstop)
    rcases hblank with rfl | ⟨t, rfl, ht⟩
    · exact .inl (List.forall₂_nil_right_iff.1 hblank')
    · obtain _ | ⟨ht', ⟨⟩⟩ := hblank'
      exact .inr ⟨_, rfl, ht'.kind.trans ht⟩

/-! ## Openings -/

theorem Opening.opens_alike_iff (o : Opening) (hlike : List.Forall₂ Token.Alike us ts) :
    o.Opens us ↔ o.Opens ts := by
  cases hlike with
  | nil => rfl
  | cons ha hback =>
    cases hback with
    | nil => cases o <;> rfl
    | cons hb _ =>
      cases o with
      | ingredients | method => simp only [Opens, ha.kind, hb.kind]
      | cookingTime | oven =>
        simp only [Opens, ha.lexeme_eq_iff (by decide : lineFeed ∉ ofString "Cooking"),
          hb.lexeme_eq_iff (by decide : lineFeed ∉ ofString "time:"),
          ha.lexeme_eq_iff (by decide : lineFeed ∉ ofString "Pre-heat"),
          hb.lexeme_eq_iff (by decide : lineFeed ∉ ofString "oven")]

/-! ## What is told apart -/

/-- Recipes that are alike are told apart from what follows them alike. -/
theorem Parts.SetApart.alike {p q : Parts} {rest rest' : List Token} (h : p.SetApart rest)
    (hstatements : List.Forall₂ Token.Alike q.statements p.statements)
    (hserves : List.Forall₂ Token.Alike q.serves p.serves)
    (hrest : List.Forall₂ Token.Alike rest' rest) : q.SetApart rest' where
  paragraph := forall_mem_of_alike (fun hut ht => by rwa [hut.kind]) hstatements h.paragraph
  nobody hnil g t more hmore hg := by
    rw [hnil] at hserves
    subst hmore
    cases hrest with
    | cons hg' hback =>
      cases hback with
      | cons ht' _ =>
        rw [ht'.kind]
        exact h.nobody (List.forall₂_nil_left_iff.1 hserves) _ _ _ rfl (hg'.kind.symm.trans hg)

end Layout

end Cookbook
