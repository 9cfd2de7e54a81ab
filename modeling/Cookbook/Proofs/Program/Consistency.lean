import Cookbook.Proofs.Program.RoundTrip

/-!
# Cookbook.Proofs.Program.Consistency

Which recipes fit together, and what program they make
(`exists_ofDrafts_iff_consistent`).

Recipes are put onto their shelf one by one, and what they serve with is looked
up when all of them are there.  Whether this succeeds is a property of the list
as a whole (`Consistent`): the shelf takes recipes with different titles whose
loops can be paired (`exists_shelve_iff`), and a label on it finds the recipe of
the draft with that title (`get?_of_shelve_iff`).  Neither depends on the order of
the drafts, so all but the first may change places.
-/

namespace Cookbook

open Text

/-! ## Names -/

namespace Text

/-- Whether a byte is the capital of another. -/
def IsCapitalOf (a b : UInt8) : Prop := 65 ≤ a ∧ a ≤ 90 ∧ b = a + 32

/-- Whether two names are the same but for the case of the letters from `A` to
`Z`. -/
def SameName (s t : Text) : Prop :=
  List.Forall₂ (fun a b => a = b ∨ IsCapitalOf a b ∨ IsCapitalOf b a) s t

theorem lowerByte_eq_iff {a b : UInt8} :
    lowerByte a = lowerByte b ↔ a = b ∨ IsCapitalOf a b ∨ IsCapitalOf b a := by
  simp only [IsCapitalOf, UInt8.le_iff_toNat_le, ← UInt8.toNat_inj, toNat_lowerByte,
    UInt8.toNat_add, UInt8.reduceToNat]
  have ha := a.toNat_lt
  have hb := b.toNat_lt
  split <;> split <;> omega

/-- Names are the same if they are found under one label. -/
theorem lower_eq_iff {s t : Text} : s.lower = t.lower ↔ SameName s t := by
  induction s generalizing t with
  | nil => cases t <;> simp [SameName, lower]
  | cons a s ih =>
    cases t with
    | nil => simp [SameName, lower]
    | cons b t =>
      have htail : s.map lowerByte = t.map lowerByte ↔ SameName s t := ih
      rw [lower, lower, List.map_cons, List.map_cons, List.cons.injEq, lowerByte_eq_iff, htail,
        SameName, SameName, List.forall₂_cons]

end Text

/-! ## Recipes that fit together -/

/-- Whether recipes make a program: there is one, the loops of each can be
paired, no two have the same title, and those that are served with are among
them. -/
structure Consistent (drafts : List Draft) : Prop where
  ne_nil : drafts ≠ []
  loops : ∀ d ∈ drafts, ∃ method, Loops.resolve d.method = .ok method
  titles : drafts.Pairwise fun d e => ¬ SameName d.title e.title
  calls : ∀ d ∈ drafts, ∀ i ∈ d.method, i.action = .serveWith →
    ∃ e ∈ drafts, SameName e.title i.name

/-- Whether a recipe is that of a draft: its loops are paired, and it ends by
serving the diners that the draft names. -/
structure Draft.Makes (d : Draft) (r : Recipe) : Prop where
  name : r.name = d.title
  ingredients : r.ingredients = d.ingredients
  instructions : ∃ method, Loops.resolve d.method = .ok method ∧
    r.instructions = method ++ d.serves.toList.map fun n => { action := .serve, count := some n }

/-- Whether a program holds the recipes of some drafts and nothing else, found by
their titles, with the first of them as the main recipe. -/
structure Program.MadeOf (p : Program) (drafts : List Draft) : Prop where
  main : ∃ d r, drafts.head? = some d ∧ d.Makes r ∧ p.main = d.title ∧ p.mainRecipe? = some r
  recipes : ∀ key r, (key, r) ∈ p.recipes.entries ↔
    ∃ d ∈ drafts, key = d.title.lower ∧ d.Makes r
  found : ∀ name r, p.find? name = some r ↔ ∃ d ∈ drafts, SameName d.title name ∧ d.Makes r
  missing : ∀ name, p.find? name = none ↔ ∀ d ∈ drafts, ¬ SameName d.title name

/-- Whether drafts fit together does not depend on their order. -/
theorem Consistent.perm {ds ds' : List Draft} (h : Consistent ds) (hp : ds.Perm ds') :
    Consistent ds' where
  ne_nil hnil := h.ne_nil (hnil ▸ hp).eq_nil
  loops d hd := h.loops d (hp.mem_iff.2 hd)
  titles := by
    refine (hp.pairwise_iff fun hne hsame => hne ?_).1 h.titles
    rw [← lower_eq_iff] at hsame ⊢
    exact hsame.symm
  calls d hd i hi ha := by
    obtain ⟨e, he, hsame⟩ := h.calls d (hp.mem_iff.2 hd) i hi ha
    exact ⟨e, hp.mem_iff.1 he, hsame⟩

/-! ## Recipes -/

section

variable {d : Draft} {r : Recipe}

theorem Draft.serving_eq (d : Draft) :
    d.serving = d.serves.toList.map fun n => { action := .serve, count := some n } := by
  rw [serving]
  cases d.serves <;> rfl

theorem ofDraft_eq_ok_iff : Recipe.ofDraft d = .ok r ↔ d.Makes r := by
  rw [Recipe.ofDraft, Draft.serving_eq]
  cases hmethod : Loops.resolve d.method with
  | error cause =>
    constructor
    · intro h
      cases h
    · intro h
      obtain ⟨method, hmethod', -⟩ := h.instructions
      rw [hmethod] at hmethod'
      cases hmethod'
  | ok method =>
    constructor
    · intro h
      cases h
      exact ⟨rfl, rfl, method, hmethod, rfl⟩
    · rintro ⟨hname, hingredients, method', hmethod', hinstructions⟩
      rw [hmethod] at hmethod'
      cases hmethod'
      simp only [← hname, ← hingredients, ← hinstructions]

theorem Draft.exists_makes_iff : (∃ r, d.Makes r) ↔ ∃ method, Loops.resolve d.method = .ok method :=
  ⟨fun ⟨_, h⟩ => h.instructions.imp fun _ h => h.1,
    fun ⟨method, h⟩ => ⟨⟨d.title, d.ingredients, _⟩, rfl, rfl, method, h, rfl⟩⟩

/-- A draft makes one recipe. -/
theorem Draft.Makes.unique {r' : Recipe} (h : d.Makes r) (h' : d.Makes r') : r = r' :=
  Except.ok.inj ((ofDraft_eq_ok_iff.2 h).symm.trans (ofDraft_eq_ok_iff.2 h'))

/-- A recipe serves with what its draft serves with. -/
theorem Draft.Makes.forall_calls_iff (h : d.Makes r) (P : Text → Prop) :
    (∀ i ∈ r.instructions, i.action = .serveWith → P i.name) ↔
      ∀ i ∈ d.method, i.action = .serveWith → P i.name := by
  obtain ⟨method, hmethod, hinstructions⟩ := h.instructions
  have hsame := Loops.map_of_resolve (f := fun i => (i.action, i.name)) Loops.action_name_connect
    hmethod
  have hcalls (is : List Instruction) : (∀ i ∈ is, i.action = .serveWith → P i.name) ↔
      ∀ c ∈ is.map fun i => (i.action, i.name), c.1 = .serveWith → P c.2 := by
    simp only [List.forall_mem_map]
  have hserving : ∀ i ∈ d.serves.toList.map fun n =>
      ({ action := .serve, count := some n } : Instruction), i.action = .serveWith → P i.name := by
    simp
  rw [hinstructions, List.forall_mem_append, and_iff_left hserving, hcalls, hsame, ← hcalls]

end

/-! ## Shelves -/

namespace Program

section

variable {ds : List Draft} {s t : Shelf Text Recipe}

theorem shelve_cons_of_makes {d : Draft} {r : Recipe} (hr : d.Makes r)
    (hfree : s.contains d.title.lower = false) :
    shelve s (d :: ds) = shelve (s.insert d.title.lower r) ds := by
  simp only [shelve, ofDraft_eq_ok_iff.2 hr, hr.name, hfree, Bool.false_eq_true, if_false]

theorem contains_insert (s : Shelf Text Recipe) (k k' : Text) (r : Recipe) :
    (s.insert k r).contains k' = false ↔ k' ≠ k ∧ s.contains k' = false := by
  rw [Shelf.contains, Shelf.contains, Shelf.get?_insert]
  split <;> simp_all

/-- A shelf takes recipes with titles that differ from each other and from the
labels in use. -/
theorem exists_shelve_iff : (∃ t, shelve s ds = .ok t) ↔
    (∀ d ∈ ds, ∃ r, d.Makes r) ∧ (∀ d ∈ ds, s.contains d.title.lower = false) ∧
      ds.Pairwise fun d e => ¬ SameName d.title e.title := by
  induction ds generalizing s with
  | nil => simp [shelve]
  | cons d ds ih =>
    simp only [List.forall_mem_cons, List.pairwise_cons]
    constructor
    · rintro ⟨t, ht⟩
      obtain ⟨r, hr, -, hfree, hrest⟩ := shelve_cons_eq_ok ht
      obtain ⟨hmakes, hlabels, htitles⟩ := ih.1 ⟨t, hrest⟩
      refine ⟨⟨⟨r, ofDraft_eq_ok_iff.1 hr⟩, hmakes⟩,
        ⟨hfree, fun e he => ((contains_insert s _ _ r).1 (hlabels e he)).2⟩, fun e he hsame => ?_,
        htitles⟩
      exact ((contains_insert s _ _ r).1 (hlabels e he)).1 (lower_eq_iff.2 hsame).symm
    · rintro ⟨⟨⟨r, hr⟩, hmakes⟩, ⟨hfree, hlabels⟩, htitle, htitles⟩
      rw [shelve_cons_of_makes hr hfree]
      refine ih.2 ⟨hmakes, fun e he => (contains_insert s _ _ r).2 ⟨fun heq => ?_, hlabels e he⟩,
        htitles⟩
      exact htitle e he (lower_eq_iff.1 heq.symm)

/-- A label finds what it found before, or the recipe of the draft whose title it
is. -/
theorem get?_of_shelve_iff (h : shelve s ds = .ok t) (k : Text) (r : Recipe) :
    t.get? k = some r ↔ s.get? k = some r ∨ ∃ d ∈ ds, k = d.title.lower ∧ d.Makes r := by
  induction ds generalizing s with
  | nil =>
    cases h
    simp
  | cons d ds ih =>
    obtain ⟨q, hq, -, hfree, hrest⟩ := shelve_cons_eq_ok h
    rw [ofDraft_eq_ok_iff] at hq
    have hnone : s.get? d.title.lower = none := by simpa [Shelf.contains] using hfree
    have hfirst : (s.insert d.title.lower q).get? k = some r ↔
        s.get? k = some r ∨ k = d.title.lower ∧ d.Makes r := by
      rw [Shelf.get?_insert]
      split
      · next hk =>
        rw [hk, hnone, Option.some.injEq]
        constructor
        · rintro rfl
          exact .inr ⟨rfl, hq⟩
        · rintro (hnil | hr)
          · cases hnil
          · exact hq.unique hr.2
      · next hk => exact ⟨.inl, fun hor => hor.elim id fun hr => absurd hr.1 hk⟩
    rw [ih hrest, hfirst, or_assoc, List.exists_mem_cons_iff]

end

/-! ## Programs -/

variable {d : Draft} {ds : List Draft} {p : Program}

theorem ofDrafts_eq_ok_iff : ofDrafts ds = .ok p ↔
    ∃ d, ds.head? = some d ∧ p.main = d.title ∧ shelve .empty ds = .ok p.recipes ∧
      p.missingCall? = none := by
  constructor
  · intro h
    obtain ⟨d, rest, rfl, hmain, hshelf, hcall⟩ := ofDrafts_eq_ok h
    exact ⟨d, rfl, hmain, hshelf, hcall⟩
  · rintro ⟨d, hd, hmain, hshelf, hcall⟩
    obtain ⟨rest, rfl⟩ := List.head?_eq_some_iff.1 hd
    have hp : ({ recipes := p.recipes, main := d.title } : Program) = p := by rw [← hmain]
    simp only [ofDrafts, hshelf, hp, hcall]

/-- A name finds the recipe of the draft with this title. -/
theorem find?_of_shelve_iff (h : shelve .empty ds = .ok p.recipes) (name : Text) (r : Recipe) :
    p.find? name = some r ↔ ∃ d ∈ ds, SameName d.title name ∧ d.Makes r := by
  rw [find?, get?_of_shelve_iff h, Shelf.get?_empty]
  simp only [reduceCtorEq, false_or, eq_comm (a := name.lower), lower_eq_iff]

theorem find?_eq_none_of_shelve_iff (h : shelve .empty ds = .ok p.recipes) (name : Text) :
    p.find? name = none ↔ ∀ d ∈ ds, ¬ SameName d.title name := by
  have hmakes := (exists_shelve_iff.1 ⟨_, h⟩).1
  rw [Option.eq_none_iff_forall_ne_some]
  constructor
  · intro hnone d hd hsame
    obtain ⟨r, hr⟩ := hmakes d hd
    exact hnone r ((find?_of_shelve_iff h name r).2 ⟨d, hd, hsame, hr⟩)
  · intro hnone r hr
    obtain ⟨d, hd, hsame, -⟩ := (find?_of_shelve_iff h name r).1 hr
    exact hnone d hd hsame

/-- No call is missing if each draft serves with titles of other drafts. -/
theorem missingCall?_of_shelve_iff (h : shelve .empty ds = .ok p.recipes) :
    p.missingCall? = none ↔ ∀ d ∈ ds, ∀ i ∈ d.method, i.action = .serveWith →
      ∃ e ∈ ds, SameName e.title i.name := by
  have hfound (name : Text) : (p.find? name).isSome ↔ ∃ e ∈ ds, SameName e.title name := by
    rw [← Option.ne_none_iff_isSome, ne_eq, find?_eq_none_of_shelve_iff h]
    simp
  have hentries (e : Text × Recipe) : e ∈ p.recipes.entries ↔
      ∃ d ∈ ds, e.1 = d.title.lower ∧ d.Makes e.2 := by
    rw [← Shelf.get?_eq_some_iff, get?_of_shelve_iff h, Shelf.get?_empty]
    simp
  have hmakes := (exists_shelve_iff.1 ⟨_, h⟩).1
  simp only [missingCall?_eq_none_iff, hfound]
  constructor
  · intro hcalls d hd
    obtain ⟨r, hr⟩ := hmakes d hd
    exact (hr.forall_calls_iff fun name => ∃ e ∈ ds, SameName e.title name).1
      (hcalls (d.title.lower, r) ((hentries _).2 ⟨d, hd, rfl, hr⟩))
  · intro hcalls e he
    obtain ⟨d, hd, -, hr⟩ := (hentries e).1 he
    exact (hr.forall_calls_iff fun name => ∃ e ∈ ds, SameName e.title name).2 (hcalls d hd)

theorem exists_ofDrafts_iff : (∃ p, ofDrafts ds = .ok p) ↔ Consistent ds := by
  have hshelves : (∃ t, shelve .empty ds = .ok t) ↔
      (∀ d ∈ ds, ∃ method, Loops.resolve d.method = .ok method) ∧
        ds.Pairwise fun d e => ¬ SameName d.title e.title := by
    have hfree : ∀ d ∈ ds, (.empty : Shelf Text Recipe).contains d.title.lower = false :=
      fun _ _ => rfl
    simp only [exists_shelve_iff, Draft.exists_makes_iff, and_iff_right hfree]
  constructor
  · rintro ⟨p, hp⟩
    obtain ⟨d, hd, -, hshelf, hcall⟩ := ofDrafts_eq_ok_iff.1 hp
    obtain ⟨hloops, htitles⟩ := hshelves.1 ⟨_, hshelf⟩
    have hne : ds ≠ [] := List.ne_nil_of_mem (List.mem_of_mem_head? hd)
    exact ⟨hne, hloops, htitles, (missingCall?_of_shelve_iff hshelf).1 hcall⟩
  · rintro ⟨hne, hloops, htitles, hcalls⟩
    obtain ⟨d, rest, rfl⟩ := List.exists_cons_of_ne_nil hne
    obtain ⟨recipes, hshelf⟩ := hshelves.2 ⟨hloops, htitles⟩
    let p : Program := { recipes, main := d.title }
    exact ⟨p, ofDrafts_eq_ok_iff.2
      ⟨d, rfl, rfl, hshelf, (missingCall?_of_shelve_iff (p := p) hshelf).2 hcalls⟩⟩

theorem madeOf_of_ofDrafts (h : ofDrafts ds = .ok p) : p.MadeOf ds := by
  obtain ⟨d, hd, hmain, hshelf, -⟩ := ofDrafts_eq_ok_iff.1 h
  have hfound := find?_of_shelve_iff hshelf
  have hmem : d ∈ ds := List.mem_of_mem_head? hd
  obtain ⟨r, hr⟩ := (exists_shelve_iff.1 ⟨_, hshelf⟩).1 d hmem
  refine ⟨⟨d, r, hd, hr, hmain, ?_⟩, fun key r => ?_, hfound, find?_eq_none_of_shelve_iff hshelf⟩
  · exact (hfound p.main r).2 ⟨d, hmem, lower_eq_iff.1 (by rw [hmain]), hr⟩
  · rw [← Shelf.get?_eq_some_iff, get?_of_shelve_iff hshelf, Shelf.get?_empty]
    simp

/-- Drafts that change places behind the first make the same program. -/
theorem ofDrafts_perm {d : Draft} {rest rest' : List Draft} (hp : rest.Perm rest')
    (h : ofDrafts (d :: rest) = .ok p) : ofDrafts (d :: rest') = .ok p := by
  have hperm : (d :: rest).Perm (d :: rest') := hp.cons d
  obtain ⟨q, hq⟩ := exists_ofDrafts_iff.2 ((exists_ofDrafts_iff.1 ⟨p, h⟩).perm hperm)
  obtain ⟨_, ⟨⟩, hmain, hshelf, -⟩ := ofDrafts_eq_ok_iff.1 h
  obtain ⟨_, ⟨⟩, hmain', hshelf', -⟩ := ofDrafts_eq_ok_iff.1 hq
  have hrecipes : q.recipes = p.recipes := by
    refine Shelf.ext_get? fun k => Option.ext fun r => ?_
    rw [get?_of_shelve_iff hshelf, get?_of_shelve_iff hshelf']
    simp only [hperm.mem_iff]
  have hsame : q = p := by
    cases p
    cases q
    simp_all
  rw [hq, hsame]

end Program

/-- Drafts make a program exactly if they fit together, and are refused with an
error otherwise.  The program holds their recipes and nothing else, and is the
same in whatever order the drafts behind the first are given. -/
theorem exists_ofDrafts_iff_consistent (drafts : List Draft) :
    ((∃ p, Program.ofDrafts drafts = .ok p) ↔ Consistent drafts) ∧
      (¬ Consistent drafts → ∃ e : BuildError, Program.ofDrafts drafts = .error e) ∧
      ∀ p, Program.ofDrafts drafts = .ok p → p.MadeOf drafts ∧
        ∀ d rest rest', drafts = d :: rest → rest.Perm rest' →
          Program.ofDrafts (d :: rest') = .ok p := by
  refine ⟨Program.exists_ofDrafts_iff, fun hnot => ?_, fun p hp => ?_⟩
  · cases h : Program.ofDrafts drafts with
    | error e => exact ⟨e, rfl⟩
    | ok p => exact absurd (Program.exists_ofDrafts_iff.1 ⟨p, h⟩) hnot
  · refine ⟨Program.madeOf_of_ofDrafts hp, ?_⟩
    rintro d rest rest' rfl hperm
    exact Program.ofDrafts_perm hperm hp

end Cookbook
