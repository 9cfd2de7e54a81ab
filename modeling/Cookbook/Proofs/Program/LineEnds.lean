import Cookbook.Program.Assembly
import Cookbook.Proofs.Draft.Respacing
import Cookbook.Proofs.Token.LineEnds

/-!
# Cookbook.Proofs.Program.LineEnds

Carriage returns in front of line feeds change nothing (`ofText_crlf`).  The
tokens are the same but for the ends of lines, which keep their kinds
(`Token.Twin`).  A title and a statement hold no end of a line, so they are the
same tokens at the same places; only a comment is spelled differently, and no
program holds one.
-/

namespace Cookbook

open Text Layout

/-! ## Tokens -/

/-- Whether two tokens are the same, or ends of lines of one kind. -/
structure Token.Twin (u t : Token) : Prop where
  alike : u.Alike t
  same : t.isLineEnd = false → u = t

section

variable {ts us : List Token}

theorem Token.Twin.symm {u t : Token} (h : u.Twin t) : t.Twin u where
  alike := by
    refine ⟨h.alike.kind.symm, ?_⟩
    rcases h.alike.lexeme with heq | ⟨hend, hu, ht⟩
    · exact .inl heq.symm
    · exact .inr ⟨h.alike.isLineEnd_eq.trans hend, ht, hu⟩
  same hend := (h.same (h.alike.isLineEnd_eq.symm.trans hend)).symm

theorem alike_of_twin (h : List.Forall₂ Token.Twin us ts) : List.Forall₂ Token.Alike us ts :=
  h.imp fun _ _ htwin => htwin.alike

theorem eq_of_twin (h : List.Forall₂ Token.Twin us ts) (hts : ∀ t ∈ ts, t.isLineEnd = false) :
    us = ts := by
  induction h with
  | nil => rfl
  | cons hhead _ ih =>
    rw [List.forall_mem_cons] at hts
    rw [hhead.same hts.1, ih hts.2]

/-- What is related in its kinds is related without its line breaks. -/
theorem forall₂_filter_lineBreak {R : Token → Token → Prop}
    (hR : ∀ u t, R u t → u.kind = t.kind) (h : List.Forall₂ R us ts) :
    List.Forall₂ R (us.filter (·.kind ≠ .lineBreak)) (ts.filter (·.kind ≠ .lineBreak)) := by
  refine List.rel_filter (fun u t hut => ?_) h
  show decide (u.kind ≠ .lineBreak) = true ↔ decide (t.kind ≠ .lineBreak) = true
  rw [hR u t hut]

/-- Scanned tokens with carriage returns put into them are the same but for the
ends of lines. -/
theorem twin_of_returned {s t : Text}
    (h : List.Forall₂ Token.Returned (Token.scan s) (Token.scan t)) :
    List.Forall₂ Token.Twin (Token.scan s) (Token.scan t) := by
  refine List.forall₂_iff_zip.2 ⟨h.length_eq, fun {u v} hmem => ?_⟩
  have hreturned := (List.forall₂_iff_zip.1 h).2 hmem
  obtain ⟨hu, hv⟩ := List.of_mem_zip hmem
  refine ⟨⟨hreturned.kind, ?_⟩, hreturned.same⟩
  cases hend : v.isLineEnd with
  | false => exact .inl (congrArg (·.lexeme) (hreturned.same hend))
  | true =>
    have hend' : u.isLineEnd := by rwa [Token.isLineEnd, hreturned.kind]
    exact .inr ⟨rfl, lineFeed_mem_of_isLineEnd (kind_of_mem_scan hu) hend',
      lineFeed_mem_of_isLineEnd (kind_of_mem_scan hv) hend⟩

end

/-! ## Recipes -/

/-- A recipe without its comment. -/
def Draft.uncommented (d : Draft) : Draft := { d with comment := [] }

namespace Layout

variable {ts us : List Token}

theorem Title.twin {name : Text} {l : Location} (h : Title ts name l)
    (htwin : List.Forall₂ Token.Twin us ts) : Title us name l := by
  have hends : ∀ t ∈ ts, t.isLineEnd = false := by
    cases h with
    | @intro first stop others hwords hstop =>
      rw [← List.cons_append, List.forall_mem_append, List.forall_mem_singleton]
      refine ⟨fun t ht => isLineEnd_of_not_isBreak (hwords t ht).1, ?_⟩
      rw [Token.isLineEnd, hstop]
  rwa [eq_of_twin htwin hends]

theorem Statements.twin {is : List Instruction} (h : Statements ts is)
    (htwin : List.Forall₂ Token.Twin us ts) (hts : ∀ t ∈ ts, t.kind ≠ .blankLine) :
    Statements us is := by
  refine ⟨h.ne_nil, ?_⟩
  rw [eq_of_twin (forall₂_filter_lineBreak (fun _ _ hut => hut.alike.kind) htwin)
    (isLineEnd_of_mem_filter hts)]
  exact h.sentences

namespace Parts

variable {p q : Parts} {d : Draft}

/-- Whether the parts of two recipes are related token by token. -/
structure Related (R : Token → Token → Prop) (q p : Parts) : Prop where
  title : List.Forall₂ R q.title p.title
  gap : R q.gap p.gap
  comment : List.Forall₂ R q.comment p.comment
  ingredients : List.Forall₂ R q.ingredients p.ingredients
  cookingTime : List.Forall₂ R q.cookingTime p.cookingTime
  oven : List.Forall₂ R q.oven p.oven
  heading : List.Forall₂ R q.heading p.heading
  statements : List.Forall₂ R q.statements p.statements
  serves : List.Forall₂ R q.serves p.serves

/-- Tokens that are related to those of a recipe fall into its parts. -/
theorem exists_related {R : Token → Token → Prop} (h : List.Forall₂ R us p.tokens) :
    ∃ q : Parts, q.Related R p ∧ q.tokens = us := by
  obtain ⟨title, _, rfl, htitle, hback⟩ := exists_append_of_forall₂ h
  obtain ⟨gap, _, hgap, hbody, rfl⟩ := List.forall₂_cons_right_iff.1 hback
  obtain ⟨comment, _, rfl, hcomment, hback⟩ := exists_append_of_forall₂ hbody
  obtain ⟨ingredients, _, rfl, hingredients, hback⟩ := exists_append_of_forall₂ hback
  obtain ⟨cookingTime, _, rfl, hcookingTime, hback⟩ := exists_append_of_forall₂ hback
  obtain ⟨oven, _, rfl, hoven, hback⟩ := exists_append_of_forall₂ hback
  obtain ⟨heading, _, rfl, hheading, hback⟩ := exists_append_of_forall₂ hback
  obtain ⟨statements, serves, rfl, hstatements, hserves⟩ := exists_append_of_forall₂ hback
  exact ⟨⟨title, gap, comment, ingredients, cookingTime, oven, heading, statements, serves⟩,
    ⟨htitle, hgap, hcomment, hingredients, hcookingTime, hoven, hheading, hstatements, hserves⟩,
    rfl⟩

theorem Related.alike (h : q.Related Token.Twin p) : q.Alike p where
  title := alike_of_twin h.title
  gap := h.gap.alike
  comment := alike_of_twin h.comment
  ingredients := alike_of_twin h.ingredients
  cookingTime := alike_of_twin h.cookingTime
  oven := alike_of_twin h.oven
  heading := alike_of_twin h.heading
  statements := forall₂_filter_lineBreak (fun _ _ hut => hut.kind) (alike_of_twin h.statements)
  serves := alike_of_twin h.serves

/-- The parts make up the same recipe, but for its comment. -/
theorem Related.yields (h : q.Related Token.Twin p) (hp : p.Yields d)
    (hparagraph : ∀ t ∈ p.statements, t.kind ≠ .blankLine) :
    ∃ d', q.Yields d' ∧ d'.uncommented = d.uncommented := by
  obtain ⟨comment, hq⟩ := h.alike.yields_of hp (hp.title.twin h.title)
    (hp.statements.twin h.statements hparagraph)
  exact ⟨_, hq, rfl⟩

theorem Related.setApart {rest rest' : List Token} (h : q.Related Token.Twin p)
    (hp : p.SetApart rest) (hrest : List.Forall₂ Token.Twin rest' rest) : q.SetApart rest' :=
  hp.alike (alike_of_twin h.statements) (alike_of_twin h.serves) (alike_of_twin hrest)

end Parts

/-! ## Books -/

theorem Recipes.twin {ds : List Draft} (h : Recipes Parts.SetApart ts ds)
    (htwin : List.Forall₂ Token.Twin us ts) :
    ∃ ds', Recipes Parts.SetApart us ds' ∧
      ds'.map Draft.uncommented = ds.map Draft.uncommented := by
  induction h generalizing us with
  | last hp hset htrail =>
    obtain ⟨_, trail, rfl, hrecipe, htail⟩ := exists_append_of_forall₂ htwin
    obtain ⟨q, hq, rfl⟩ := Parts.exists_related hrecipe
    obtain ⟨d', hyields, hd'⟩ := hq.yields hp hset.paragraph
    exact ⟨[d'], .last hyields (hq.setApart hset htail) (htrail.alike (alike_of_twin htail)),
      by rw [List.map_singleton, List.map_singleton, hd']⟩
  | cons hp hset hblank _ ih =>
    obtain ⟨_, back, rfl, hrecipe, hback⟩ := exists_append_of_forall₂ htwin
    obtain ⟨blank, rest, hblank', hrest, rfl⟩ := List.forall₂_cons_right_iff.1 hback
    obtain ⟨q, hq, rfl⟩ := Parts.exists_related hrecipe
    obtain ⟨d', hyields, hd'⟩ := hq.yields hp hset.paragraph
    obtain ⟨ds', hds', hsame⟩ := ih hrest
    exact ⟨d' :: ds', .cons hyields (hq.setApart hset hback) (hblank'.alike.kind.trans hblank) hds',
      by rw [List.map_cons, List.map_cons, hd', hsame]⟩

theorem Book.twin {ds : List Draft} (h : Book Parts.SetApart ts ds)
    (htwin : List.Forall₂ Token.Twin us ts) :
    ∃ ds', Book Parts.SetApart us ds' ∧
      ds'.map Draft.uncommented = ds.map Draft.uncommented := by
  cases h with
  | intro hlead hrecipes hfinish =>
    obtain ⟨lead, _, rfl, hlead', hback⟩ := exists_append_of_forall₂ htwin
    obtain ⟨recipes, _, rfl, hrecipes', hback⟩ := exists_append_of_forall₂ hback
    obtain ⟨finish, _, hfinish', hnil, rfl⟩ := List.forall₂_cons_right_iff.1 hback
    cases hnil
    obtain ⟨ds', hds', hsame⟩ := hrecipes.twin hrecipes'
    exact ⟨ds', .intro (hlead.alike (alike_of_twin hlead')) hds'
      (hfinish'.alike.kind.trans hfinish), hsame⟩

end Layout

/-! ## Programs -/

namespace Program

theorem shelve_map_uncommented (shelf : Shelf Text Recipe) (ds : List Draft) :
    shelve shelf (ds.map Draft.uncommented) = shelve shelf ds := by
  induction ds generalizing shelf with
  | nil => rfl
  | cons d ds ih =>
    have hrecipe : Recipe.ofDraft d.uncommented = Recipe.ofDraft d := rfl
    rw [List.map_cons, shelve, shelve, hrecipe]
    simp only [ih]

/-- No program holds a comment. -/
theorem ofDrafts_map_uncommented (ds : List Draft) :
    ofDrafts (ds.map Draft.uncommented) = ofDrafts ds := by
  cases ds with
  | nil => rfl
  | cons d ds =>
    have hshelf := shelve_map_uncommented .empty (d :: ds)
    rw [List.map_cons] at hshelf ⊢
    rw [ofDrafts, ofDrafts, hshelf]
    rfl

theorem ofText_eq_ok_iff {text : Text} {p : Program} :
    ofText text = .ok p ↔ ∃ ds, Draft.parse text = .ok ds ∧ ofDrafts ds = .ok p := by
  rw [ofText]
  cases Draft.parse text with
  | error e => simp
  | ok ds => cases h : ofDrafts ds <;> simp [h]

/-- Texts with the same tokens but for the ends of lines make the same
program. -/
theorem ofText_of_twin {s t : Text} {p : Program}
    (htwin : List.Forall₂ Token.Twin (Token.scan s) (Token.scan t)) (h : ofText t = .ok p) :
    ofText s = .ok p := by
  obtain ⟨ds, hparse, hp⟩ := ofText_eq_ok_iff.1 h
  obtain ⟨ds', hbook, hsame⟩ := (book_of_parse hparse).twin htwin
  refine ofText_eq_ok_iff.2 ⟨ds', parse_of_book hbook, ?_⟩
  rw [← ofDrafts_map_uncommented, hsame, ofDrafts_map_uncommented, hp]

end Program

/-- Carriage returns in front of line feeds change nothing: the tokens are the
same but for how the ends of lines are spelled, and the text makes the same
program, or none if it made none before. -/
theorem ofText_crlf (t : Text) :
    List.Forall₂ Token.Returned (Token.scan t.crlf) (Token.scan t) ∧
      ∀ p, Program.ofText t.crlf = .ok p ↔ Program.ofText t = .ok p := by
  have htwin := twin_of_returned (Token.scan_crlf t)
  have hback : List.Forall₂ Token.Twin (Token.scan t) (Token.scan t.crlf) :=
    htwin.flip.imp fun _ _ h => h.symm
  exact ⟨Token.scan_crlf t, fun p =>
    ⟨Program.ofText_of_twin hback, Program.ofText_of_twin htwin⟩⟩

end Cookbook
