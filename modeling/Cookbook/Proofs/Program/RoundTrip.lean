import Cookbook.Proofs.Draft.Rereading
import Cookbook.Proofs.Loops.Agreement

/-!
# Cookbook.Proofs.Program.RoundTrip

A program that is loaded can be written out and loaded again
(`ofText_manuscript`).  What comes back is the same program without its
ingredients (`Program.Restates`): the recipes stand on the shelf under the same
names, ask for the same statement by statement, and serve with recipes that are
there.
-/

namespace Cookbook

open Text

/-- Whether a recipe is another one without its ingredients, its statements
standing at other places. -/
structure Recipe.Restates (r' r : Recipe) : Prop where
  name : r'.name = r.name
  ingredients : r'.ingredients = []
  instructions : List.Forall₂ Instruction.Agrees r'.instructions r.instructions

/-- Whether the recipes on a shelf restate those on another, label by label. -/
def Shelf.Restates (s' s : Shelf Text Recipe) : Prop :=
  List.Forall₂ (fun e' e => e'.1 = e.1 ∧ e'.2.Restates e.2) s'.entries s.entries

/-- Whether a program is another one without its ingredients. -/
structure Program.Restates (p' p : Program) : Prop where
  main : p'.main = p.main
  recipes : p'.recipes.Restates p.recipes

/-- A member of one of two related lists is related to a member of the other. -/
theorem exists_mem_of_forall₂ {α β : Type} {R : α → β → Prop} {l' : List α} {l : List β} {a' : α}
    (h : List.Forall₂ R l' l) (ha : a' ∈ l') : ∃ a ∈ l, R a' a := by
  induction h with
  | nil => simp at ha
  | @cons b' b l' l hb _ ih =>
    rcases List.mem_cons.1 ha with rfl | ha
    · exact ⟨b, by simp, hb⟩
    · obtain ⟨a, hmem, hR⟩ := ih ha
      exact ⟨a, List.mem_cons_of_mem b hmem, hR⟩

/-! ## Recipes -/

theorem manuscript_of_ofDraft {d : Draft} {r : Recipe} (h : Recipe.ofDraft d = .ok r) :
    r.manuscript = d.unpaired.manuscript := by
  rw [Recipe.ofDraft] at h
  cases hmethod : Loops.resolve d.method with
  | error cause => simp [hmethod] at h
  | ok method =>
    simp only [hmethod, Except.ok.injEq] at h
    have hsentences : (method ++ d.serving).map Instruction.sentence =
        (d.method ++ d.serving).map Instruction.sentence := by
      rw [List.map_append, List.map_append, Loops.map_sentence_of_resolve hmethod]
    have hlines (is : List Instruction) : is.flatMap (fun i => i.sentence ++ ofString "\n") =
        (is.map Instruction.sentence).flatMap (· ++ ofString "\n") := by
      rw [List.flatMap_map]
    rw [← h]
    simp only [Recipe.manuscript, Draft.unpaired]
    rw [hlines, hsentences, hlines]

theorem manuscript_of_ofDrafts {ds : List Draft} {rs : List Recipe}
    (h : List.Forall₂ (fun d r => Recipe.ofDraft d = .ok r) ds rs) :
    manuscript rs = manuscript (ds.map Draft.unpaired) := by
  induction h with
  | nil => rfl
  | @cons d r ds rs hr hrs ih =>
    cases hrs with
    | nil => exact manuscript_of_ofDraft hr
    | cons hr' hrs =>
      rw [manuscript, ih, manuscript_of_ofDraft hr]
      rfl

/-- A draft that restates another makes a recipe that restates the other's. -/
theorem Draft.Restates.exists_ofDraft {d' d : Draft} {r : Recipe} (hd : d'.Restates d)
    (h : Recipe.ofDraft d = .ok r) : ∃ r', Recipe.ofDraft d' = .ok r' ∧ r'.Restates r := by
  rw [Recipe.ofDraft] at h
  cases hmethod : Loops.resolve d.method with
  | error cause => simp [hmethod] at h
  | ok method =>
    simp only [hmethod, Except.ok.injEq] at h
    obtain ⟨method', hmethod', hagrees⟩ := Loops.exists_resolve_of_agrees hd.method hmethod
    refine ⟨_, by rw [Recipe.ofDraft, hmethod'], ?_⟩
    rw [← h]
    refine ⟨hd.title, hd.ingredients, List.rel_append hagrees ?_⟩
    rw [Draft.serving, Draft.serving, hd.serves]
    exact List.forall₂_same.2 fun i _ => rfl

/-! ## Shelves -/

namespace Shelf

section

variable {R : Recipe → Recipe → Prop} {l' l : List (Text × Recipe)}

/-- The same labels are found on shelves with related recipes. -/
theorem isSome_find?_of_forall₂ (h : List.Forall₂ (fun e' e => e'.1 = e.1 ∧ R e'.2 e.2) l' l)
    (k : Text) : (find? k l').isSome = (find? k l).isSome := by
  induction h with
  | nil => rfl
  | @cons e' e l' l he _ ih =>
    rw [find?, find?, he.1]
    by_cases hk : k = e.1
    · rw [if_pos hk, if_pos hk]
      rfl
    · rw [if_neg hk, if_neg hk]
      exact ih

/-- Related recipes are put in the same place. -/
theorem forall₂_place (h : List.Forall₂ (fun e' e => e'.1 = e.1 ∧ R e'.2 e.2) l' l) (k : Text)
    {r' r : Recipe} (hr : R r' r) :
    List.Forall₂ (fun e' e => e'.1 = e.1 ∧ R e'.2 e.2) (place k r' l') (place k r l) := by
  induction h with
  | nil => exact .cons ⟨rfl, hr⟩ .nil
  | @cons e' e l' l he hl ih =>
    rw [place, place, he.1]
    cases compare k e.1 with
    | lt => exact .cons ⟨rfl, hr⟩ (.cons he hl)
    | eq => exact .cons ⟨rfl, hr⟩ hl
    | gt => exact .cons he ih

end

theorem Restates.contains_eq {s' s : Shelf Text Recipe} (h : s'.Restates s) (k : Text) :
    s'.contains k = s.contains k :=
  isSome_find?_of_forall₂ h k

theorem Restates.insert {s' s : Shelf Text Recipe} {r' r : Recipe} (h : s'.Restates s) (k : Text)
    (hr : r'.Restates r) : (s'.insert k r').Restates (s.insert k r) :=
  forall₂_place h k hr

end Shelf

namespace Program

section

variable {d : Draft} {ds : List Draft} {s t : Shelf Text Recipe}

/-- What is put onto a shelf with some recipes: the first of them under a label
that was free, then the others. -/
theorem shelve_cons_eq_ok (h : shelve s (d :: ds) = .ok t) :
    ∃ r, Recipe.ofDraft d = .ok r ∧ r.name = d.title ∧ s.contains d.title.lower = false ∧
      shelve (s.insert d.title.lower r) ds = .ok t := by
  cases hr : Recipe.ofDraft d with
  | error e => simp [shelve, hr] at h
  | ok r =>
    have hname : r.name = d.title := by
      cases hmethod : Loops.resolve d.method with
      | error cause => simp [Recipe.ofDraft, hmethod] at hr
      | ok method =>
        simp only [Recipe.ofDraft, hmethod, Except.ok.injEq] at hr
        rw [← hr]
    simp only [shelve, hr, hname] at h
    by_cases htaken : s.contains d.title.lower = true
    · simp [htaken] at h
    · rw [if_neg htaken] at h
      exact ⟨r, rfl, hname, Bool.eq_false_iff.2 htaken, h⟩

/-- What has its place on a shelf keeps it while recipes are put there. -/
theorem get?_of_shelve {k : Text} {r : Recipe} (h : shelve s ds = .ok t) (hk : s.get? k = some r) :
    t.get? k = some r := by
  induction ds generalizing s with
  | nil =>
    cases h
    exact hk
  | cons d ds ih =>
    obtain ⟨q, -, -, hfree, hrest⟩ := shelve_cons_eq_ok h
    have hne : k ≠ d.title.lower := by
      intro heq
      rw [Shelf.contains, ← heq, hk] at hfree
      cases hfree
    exact ih hrest (by rw [Shelf.get?_insert_of_ne _ _ hne, hk])

/-- Every recipe that is put onto a shelf is found there by its title. -/
theorem exists_recipes_of_shelve (h : shelve s ds = .ok t) :
    ∃ rs, List.Forall₂ (fun d r => Recipe.ofDraft d = .ok r) ds rs ∧
      ds.map (fun d => t.get? d.title.lower) = rs.map some := by
  induction ds generalizing s with
  | nil => exact ⟨[], .nil, rfl⟩
  | cons d ds ih =>
    obtain ⟨r, hr, -, -, hrest⟩ := shelve_cons_eq_ok h
    obtain ⟨rs, hrs, hfound⟩ := ih hrest
    refine ⟨r :: rs, .cons hr hrs, ?_⟩
    rw [List.map_cons, List.map_cons, hfound,
      get?_of_shelve hrest (Shelf.get?_insert_self s d.title.lower r)]

/-- Drafts that restate others fill a shelf as the others do. -/
theorem exists_shelve_of_restates {ds' : List Draft} {s' : Shelf Text Recipe}
    (hds : List.Forall₂ Draft.Restates ds' ds) (hs : s'.Restates s) (h : shelve s ds = .ok t) :
    ∃ t', shelve s' ds' = .ok t' ∧ t'.Restates t := by
  induction hds generalizing s s' with
  | nil =>
    cases h
    exact ⟨s', rfl, hs⟩
  | @cons d' d ds' ds hd _ ih =>
    obtain ⟨r, hr, hname, hfree, hrest⟩ := shelve_cons_eq_ok h
    obtain ⟨r', hr', hrestates⟩ := hd.exists_ofDraft hr
    obtain ⟨t', ht', hresult⟩ := ih (hs.insert d.title.lower hrestates) hrest
    refine ⟨t', ?_, hresult⟩
    have hname' : r'.name.lower = d.title.lower := by rw [hrestates.name, hname]
    simp only [shelve, hr', hname', hs.contains_eq, hfree]
    exact ht'

end

/-! ## Programs -/

/-- No call is missing exactly if every recipe that is served with is there. -/
theorem missingCall?_eq_none_iff {p : Program} : p.missingCall? = none ↔
    ∀ e ∈ p.recipes.entries, ∀ i ∈ e.2.instructions, i.action = .serveWith →
      (p.find? i.name).isSome := by
  simp only [missingCall?, List.findSome?_eq_none_iff, Option.map_eq_none_iff,
    List.find?_eq_none, Bool.and_eq_true, decide_eq_true_eq, not_and, Bool.not_eq_true,
    Option.isNone_eq_false_iff]

theorem ofDrafts_eq_ok {ds : List Draft} {p : Program} (h : ofDrafts ds = .ok p) :
    ∃ d rest, ds = d :: rest ∧ p.main = d.title ∧ shelve .empty ds = .ok p.recipes ∧
      p.missingCall? = none := by
  cases ds with
  | nil => simp [ofDrafts] at h
  | cons d rest =>
    rw [ofDrafts] at h
    cases hshelf : shelve .empty (d :: rest) with
    | error e => simp [hshelf] at h
    | ok recipes =>
      simp only [hshelf] at h
      cases hcall : Program.missingCall? { recipes, main := d.title } with
      | some e => simp [hcall] at h
      | none =>
        simp only [hcall, Except.ok.injEq] at h
        subst h
        exact ⟨d, rest, rfl, rfl, rfl, hcall⟩

/-- A program that restates another serves with nothing that is missing if the
other does not. -/
theorem Restates.missingCall?_eq_none {p' p : Program} (hp : p'.Restates p)
    (h : p.missingCall? = none) : p'.missingCall? = none := by
  rw [missingCall?_eq_none_iff] at h ⊢
  intro e' he' i' hi' haction
  obtain ⟨e, he, -, hrecipe⟩ := exists_mem_of_forall₂ hp.recipes he'
  obtain ⟨i, hi, hagrees⟩ := exists_mem_of_forall₂ hrecipe.instructions hi'
  have hthere : p.recipes.contains i.name.lower :=
    h e he i hi (by rw [← hagrees.action_eq, haction])
  rw [← hp.recipes.contains_eq, ← hagrees.name_eq] at hthere
  exact hthere

/-- Drafts that restate others make a program that restates the others'. -/
theorem exists_ofDrafts_of_restates {ds' ds : List Draft} {p : Program}
    (hds : List.Forall₂ Draft.Restates ds' ds) (h : ofDrafts ds = .ok p) :
    ∃ p', ofDrafts ds' = .ok p' ∧ p'.Restates p := by
  obtain ⟨d, rest, rfl, hmain, hshelf, hcall⟩ := ofDrafts_eq_ok h
  have hempty : Shelf.Restates .empty .empty := .nil
  obtain ⟨t', hshelf', hrestates⟩ := exists_shelve_of_restates hds hempty hshelf
  cases hds with
  | @cons d' _ rest' _ hd _ =>
    have hp' : Program.Restates { recipes := t', main := d'.title } p :=
      ⟨hd.title.trans hmain.symm, hrestates⟩
    refine ⟨{ recipes := t', main := d'.title }, ?_, hp'⟩
    simp only [ofDrafts, hshelf', hp'.missingCall?_eq_none hcall]

end Program

/-- The recipes of a program that was loaded, written out in the order of their
text, are loaded as the same program without its ingredients. -/
theorem ofText_manuscript {text : Text} {p : Program} (h : Program.ofText text = .ok p) :
    ∃ ds rs, Draft.parse text = .ok ds ∧ ds.map (fun d => p.find? d.title) = rs.map some ∧
      ∃ p', Program.ofText (manuscript rs) = .ok p' ∧ p'.Restates p := by
  rw [Program.ofText] at h
  cases hparse : Draft.parse text with
  | error e => simp [hparse] at h
  | ok ds =>
    simp only [hparse] at h
    cases hp : Program.ofDrafts ds with
    | error e => simp [hp] at h
    | ok q =>
      simp only [hp, Except.ok.injEq] at h
      subst h
      obtain ⟨d, rest, hds, -, hshelf, -⟩ := Program.ofDrafts_eq_ok hp
      obtain ⟨hreadable, hchain⟩ := readable_of_parse hparse
      obtain ⟨rs, hrs, hfound⟩ := Program.exists_recipes_of_shelve hshelf
      obtain ⟨ds', hparse', hrestates⟩ :=
        parse_manuscript (by rw [hds]; exact List.cons_ne_nil d rest) hreadable hchain
      obtain ⟨p', hp', hresult⟩ := Program.exists_ofDrafts_of_restates hrestates hp
      refine ⟨ds, rs, rfl, hfound, p', ?_, hresult⟩
      rw [← manuscript_of_ofDrafts hrs] at hparse'
      simp only [Program.ofText, hparse', hp']

/-- A book with ingredients, a loop whose last word is not in lower case, a
recipe that is served with and a number of diners. -/
theorem ofText_manuscript_soup :
    let book : Text :=
      "Soup.\n\nIngredients.\n3 g salt\n\nMethod.\nWhisk the salt. Put salt into mixing bowl.\n" ++
        ofString "Whisk salt until WHISKED. Serve with sauce.\n\nServes 1.\n\n" ++
          ofString "Sauce.\n\nMethod.\nLiquify contents of the mixing bowl."
    ∃ p, Program.ofText book = .ok p ∧
      ∃ ds rs, Draft.parse book = .ok ds ∧ ds.map (fun d => p.find? d.title) = rs.map some ∧
        ∃ p', Program.ofText (manuscript rs) = .ok p' ∧ p'.Restates p := by
  intro book
  have hloads : (Program.ofText book).isOk := by decide +kernel
  cases hp : Program.ofText book with
  | error e => simp [hp, Except.isOk, Except.toBool] at hloads
  | ok p => exact ⟨p, rfl, ofText_manuscript hp⟩

end Cookbook
