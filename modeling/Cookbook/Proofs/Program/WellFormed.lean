import Cookbook.Proofs.Program.RoundTrip

/-!
# Cookbook.Proofs.Program.WellFormed

What cooking may rely on in a program that was loaded (`wellFormed_of_ofText`).
Statements have the operands that their actions work with
(`Instruction.WellFormed`), because only those can be said (`Spoken.wellFormed`)
and pairing loops touches none of them.  Within a recipe every jump has its
target, and serving comes last (`Recipe.WellFormed`).  Across recipes, what is
served with is there (`Program.WellFormed`).
-/

namespace Cookbook

open Text Loops

/-! ## What is well formed -/

/-- Whether an action works with an ingredient, which a statement then has to
name. -/
def Action.needsIngredient : Action → Bool
  | take | put | fold | add | remove | combine | divide | liquefy | stirIngredient | loopStart =>
    true
  | _ => false

/-- The operands of an instruction are those that its action works with.  The
end of a loop may name an ingredient or not. -/
structure Instruction.WellFormed (i : Instruction) : Prop where
  bowl : 1 ≤ i.bowl
  dish : 1 ≤ i.dish
  named : i.action.needsIngredient = true → i.ingredient ≠ []
  unnamed : i.action.needsIngredient = false → i.action ≠ .loopEnd → i.ingredient = []
  minutes : i.action = .stir → ∃ n, i.count = some n ∧ 0 ≤ n
  hours : i.action = .refrigerate → ∀ n, i.count = some n → 1 ≤ n
  diners : i.action = .serve → ∃ n, i.count = some n ∧ 1 ≤ n

/-- Every statement has its operands, every jump its target, and serving comes
last. -/
structure Recipe.WellFormed (r : Recipe) : Prop where
  operands : ∀ i ∈ r.instructions, i.WellFormed
  serve_last : ∀ n i, StandsAt r.instructions n .serve i → n + 1 = r.instructions.length
  start_target : ∀ s i, StandsAt r.instructions s .loopStart i →
    ∃ j, StandsAt r.instructions i.target .loopEnd j ∧ j.keyword = i.keyword ∧ j.target = s
  end_target : ∀ e j, StandsAt r.instructions e .loopEnd j →
    ∃ i, StandsAt r.instructions j.target .loopStart i ∧ i.keyword = j.keyword ∧ i.target = e
  /-- What is set aside leaves a loop around it, for the end of that loop. -/
  exit_target : ∀ b x, StandsAt r.instructions b .setAside x →
    ∃ s i, StandsAt r.instructions s .loopStart i ∧ s < b ∧ b < i.target ∧ x.target = i.target

/-- The recipes are well formed, and every recipe that is served with is there,
whatever the case its name is written in. -/
structure Program.WellFormed (p : Program) : Prop where
  recipes : ∀ e ∈ p.recipes.entries, e.2.WellFormed
  calls : ∀ e ∈ p.recipes.entries, ∀ i ∈ e.2.instructions, i.action = .serveWith →
    ∃ e' ∈ p.recipes.entries, e'.2.name.lower = i.name.lower

/-! ## Statements -/

theorem Action.needsIngredient_of_bowlWords? {a : Action} {o w : Text}
    (h : a.bowlWords? = some (o, w)) :
    a.needsIngredient = true ∧ a ≠ .stir ∧ a ≠ .refrigerate ∧ a ≠ .serve := by
  cases a <;> simp [bowlWords?, needsIngredient] at h ⊢

/-- What can be said has its operands. -/
theorem Spoken.wellFormed {X : List Text} {i : Instruction} (h : Spoken X i) (hX : Spelled X) :
    i.WellFormed := by
  have hjoined (hne : X ≠ []) : joined X ≠ [] := fun hj => hne (eq_nil_of_joined_eq_nil hX hj)
  have hone {b : UInt32} (hb : b ≠ 0) : 1 ≤ b := by
    rw [UInt32.le_iff_toNat_le]
    have hpos : b.toNat ≠ 0 := fun h0 => hb (UInt32.toNat_inj.1 h0)
    exact Nat.pos_of_ne_zero hpos
  cases h with
  | working ha hne _ hb =>
    obtain ⟨hneeds, hstir, hrefrigerate, hserve⟩ := Action.needsIngredient_of_bowlWords? ha
    exact ⟨hone hb, by simp, fun _ => hjoined hne, fun hnone => by simp [hneeds] at hnone,
      fun ha => absurd ha hstir, fun ha => absurd ha hrefrigerate, fun ha => absurd ha hserve⟩
  | inBowl ha hb =>
    simp only [List.mem_cons, List.not_mem_nil, or_false] at ha
    rcases ha with rfl | rfl | rfl | rfl <;>
      exact ⟨hone hb, by simp, by simp [Action.needsIngredient], by simp, by simp, by simp, by simp⟩
  | stir hb hn =>
    exact ⟨hone hb, by simp, by simp [Action.needsIngredient], by simp, fun _ => ⟨_, rfl, hn⟩,
      by simp, by simp⟩
  | pour hb hd =>
    exact ⟨hone hb, hone hd, by simp [Action.needsIngredient], by simp, by simp, by simp, by simp⟩
  | refrigerateFor hn =>
    exact ⟨by simp, by simp, by simp [Action.needsIngredient], by simp, by simp,
      fun _ _ hm => Option.some.inj hm ▸ hn, by simp⟩
  | take hne | liquefy hne | loopStart hne =>
    exact ⟨by simp, by simp, fun _ => hjoined hne, by simp [Action.needsIngredient], by simp,
      by simp, by simp⟩
  | setAside | serveWith | refrigerate | loopEnd =>
    exact ⟨by simp, by simp, by simp [Action.needsIngredient], by simp, by simp, by simp, by simp⟩

/-- No statement asks for serving: that is what a number of diners is for. -/
theorem Spoken.action_ne_serve {X : List Text} {i : Instruction} (h : Spoken X i) :
    i.action ≠ .serve := by
  cases h with
  | @working _ a o w b ha =>
    rintro rfl
    simp [Action.bowlWords?] at ha
  | @inBowl a b ha =>
    rintro rfl
    simp at ha
  | _ => simp

theorem Instruction.Sayable.exists_spoken {i : Instruction} (h : i.Sayable) :
    ∃ X, Spelled X ∧ Spoken X i.unplaced := by
  have hspelled := spelled_of_isPlain h.isPlain
  obtain ⟨X, hX, hspoken, -⟩ := spokenIn_of_asks hspelled h.asks
  exact ⟨X, hspelled.of_infix hX, hspoken⟩

/-- What is sayable has its operands. -/
theorem Instruction.Sayable.wellFormed {i : Instruction} (h : i.Sayable) : i.WellFormed := by
  obtain ⟨X, hX, hspoken⟩ := h.exists_spoken
  obtain ⟨h1, h2, h3, h4, h5, h6, h7⟩ := hspoken.wellFormed hX
  exact ⟨h1, h2, h3, h4, h5, h6, h7⟩

theorem Instruction.Sayable.action_ne_serve {i : Instruction} (h : i.Sayable) :
    i.action ≠ .serve := by
  obtain ⟨X, -, hspoken⟩ := h.exists_spoken
  exact hspoken.action_ne_serve

/-- Pairing loops touches none of the operands. -/
theorem Instruction.WellFormed.paired {i : Instruction} (h : i.WellFormed) (keyword : Text)
    (target : Nat) : WellFormed { i with keyword, target } := by
  obtain ⟨h1, h2, h3, h4, h5, h6, h7⟩ := h
  exact ⟨h1, h2, h3, h4, h5, h6, h7⟩

/-! ## Recipes -/

namespace Loops

variable {m m' : List Instruction} {n : Nat} {a : Action} {i : Instruction}

theorem StandsAt.append (h : StandsAt m n a i) : StandsAt (m ++ m') n a i := by
  refine ⟨?_, h.2⟩
  rw [List.getElem?_append_left (List.getElem?_eq_some_iff.1 h.1).1, h.1]

/-- A statement stands in the first of two methods if it is none of those in the
second. -/
theorem StandsAt.of_append (h : StandsAt (m ++ m') n a i) (hm : ∀ j ∈ m', j.action ≠ a) :
    StandsAt m n a i := by
  obtain ⟨hget, ha⟩ := h
  refine ⟨?_, ha⟩
  by_cases hlt : n < m.length
  · rwa [List.getElem?_append_left hlt] at hget
  · rw [List.getElem?_append_right (Nat.le_of_not_lt hlt)] at hget
    exact absurd ha (hm i (List.mem_of_getElem? hget))

end Loops

theorem Draft.action_of_mem_serving {d : Draft} {i : Instruction} (h : i ∈ d.serving) :
    ∃ n, d.serves = some n ∧ i = { action := .serve, count := some n } := by
  rw [serving] at h
  cases hn : d.serves with
  | none => simp [hn] at h
  | some n => exact ⟨n, rfl, by simpa [hn] using h⟩

/-- The recipe of a readable draft is well formed. -/
theorem Draft.Readable.wellFormed {d : Draft} {r : Recipe} (hd : d.Readable)
    (h : Recipe.ofDraft d = .ok r) : r.WellFormed := by
  rw [Recipe.ofDraft] at h
  cases hmethod : Loops.resolve d.method with
  | error cause => simp [hmethod] at h
  | ok method =>
    simp only [hmethod, Except.ok.injEq] at h
    subst h
    have hresolved := resolved_of_resolve hmethod
    have hserving {a : Action} (ha : a ≠ .serve) : ∀ j ∈ d.serving, j.action ≠ a := by
      intro j hj
      obtain ⟨n, -, rfl⟩ := action_of_mem_serving hj
      exact ha.symm
    -- a paired statement is a statement that was said
    have hpaired {j : Instruction} (hj : j ∈ method) :
        ∃ (i : Instruction) (keyword : Text) (target : Nat),
          i.Sayable ∧ j = { i with keyword, target } := by
      obtain ⟨n, hn⟩ := List.mem_iff_getElem?.1 hj
      have hlt : n < d.method.length :=
        hresolved.length_eq ▸ (List.getElem?_eq_some_iff.1 hn).1
      have hi := List.getElem?_eq_getElem hlt
      exact ⟨_, _, _, hd.sayable _ (List.mem_of_getElem? hi),
        (hresolved.unchanged n _ j hi hn).1⟩
    refine ⟨?_, ?_, ?_, ?_, ?_⟩
    · refine List.forall_mem_append.2 ⟨fun j hj => ?_, fun j hj => ?_⟩
      · obtain ⟨i, keyword, target, hi, rfl⟩ := hpaired hj
        exact hi.wellFormed.paired keyword target
      · obtain ⟨n, hn, rfl⟩ := action_of_mem_serving hj
        exact ⟨by simp, by simp, by simp [Action.needsIngredient], by simp, by simp, by simp,
          fun _ => ⟨n, rfl, hd.diners n hn⟩⟩
    · rintro n i ⟨hget, ha⟩
      rw [List.getElem?_append] at hget
      split at hget
      · obtain ⟨j, keyword, target, hj, rfl⟩ := hpaired (List.mem_of_getElem? hget)
        exact absurd ha hj.action_ne_serve
      · next hle =>
        obtain ⟨hlt, -⟩ := List.getElem?_eq_some_iff.1 hget
        have hlen : d.serving.length ≤ 1 := by
          rw [Draft.serving]
          split <;> simp
        rw [List.length_append]
        omega
    · intro s i hi
      obtain ⟨j, hj, htarget, -, hkey⟩ :=
        hresolved.start_target s i (hi.of_append (hserving (by simp)))
      exact ⟨j, hj.append, hkey, htarget⟩
    · intro e j hj
      obtain ⟨i, hi, htarget, -, hkey⟩ :=
        hresolved.end_target e j (hj.of_append (hserving (by simp)))
      exact ⟨i, hi.append, hkey, htarget⟩
    · intro b x hx
      obtain ⟨s, i, hi, hlt, hgt, htarget, -⟩ :=
        hresolved.exit_target b x (hx.of_append (hserving (by simp)))
      exact ⟨s, i, hi.append, hlt, hgt, htarget⟩

/-! ## Programs -/

namespace Program

/-- What stands on a shelf was there before, or is the recipe of a draft under
its name. -/
theorem mem_of_shelve {ds : List Draft} {s t : Shelf Text Recipe} (h : shelve s ds = .ok t)
    {e : Text × Recipe} (he : e ∈ t.entries) :
    e ∈ s.entries ∨ ∃ d ∈ ds, Recipe.ofDraft d = .ok e.2 ∧ e.1 = e.2.name.lower := by
  induction ds generalizing s with
  | nil =>
    cases h
    exact .inl he
  | cons d ds ih =>
    obtain ⟨r, hr, hname, -, hrest⟩ := shelve_cons_eq_ok h
    rcases ih hrest with hmem | ⟨d', hd', hof, hlabel⟩
    · rcases Shelf.mem_place hmem with rfl | hmem
      · exact .inr ⟨d, by simp, hr, by rw [hname]⟩
      · exact .inl hmem
    · exact .inr ⟨d', List.mem_cons_of_mem d hd', hof, hlabel⟩

/-- A recipe that is found has the name it was looked up by, but for case. -/
theorem exists_mem_of_find? {p : Program} {name : Text}
    (hlabel : ∀ e ∈ p.recipes.entries, e.1 = e.2.name.lower) (h : (p.find? name).isSome) :
    ∃ e ∈ p.recipes.entries, e.2.name.lower = name.lower := by
  obtain ⟨r, hr⟩ := Option.isSome_iff_exists.1 h
  have hmem := Shelf.mem_of_find? hr
  exact ⟨_, hmem, (hlabel _ hmem).symm⟩

/-- Readable drafts make a well-formed program. -/
theorem wellFormed_of_ofDrafts {ds : List Draft} {p : Program} (hds : ∀ d ∈ ds, d.Readable)
    (h : ofDrafts ds = .ok p) : p.WellFormed := by
  obtain ⟨-, -, -, -, hshelf, hcalls⟩ := ofDrafts_eq_ok h
  have hmade {e : Text × Recipe} (he : e ∈ p.recipes.entries) :
      ∃ d ∈ ds, Recipe.ofDraft d = .ok e.2 ∧ e.1 = e.2.name.lower := by
    rcases mem_of_shelve hshelf he with hempty | hmade
    · exact absurd hempty (List.not_mem_nil)
    · exact hmade
  refine ⟨fun e he => ?_, fun e he i hi ha => ?_⟩
  · obtain ⟨d, hd, hof, -⟩ := hmade he
    exact (hds d hd).wellFormed hof
  · refine exists_mem_of_find? (fun e he => ?_) (missingCall?_eq_none_iff.1 hcalls e he i hi ha)
    obtain ⟨-, -, -, hlabel⟩ := hmade he
    exact hlabel

end Program

/-- A program that was loaded is well formed. -/
theorem wellFormed_of_ofText {text : Text} {p : Program} (h : Program.ofText text = .ok p) :
    p.WellFormed := by
  rw [Program.ofText] at h
  cases hparse : Draft.parse text with
  | error e => simp [hparse] at h
  | ok ds =>
    simp only [hparse] at h
    cases hp : Program.ofDrafts ds with
    | error e => simp [hp] at h
    | ok q =>
      simp only [hp, Except.ok.injEq] at h
      subst h
      exact Program.wellFormed_of_ofDrafts (readable_of_parse hparse).1 hp

/-- A book with loops that cross, something set aside between them, numbers of
every kind and a recipe that is served with in capital letters. -/
theorem wellFormed_of_ofText_stew :
    let book : Text :=
      "Stew.\n\nIngredients.\n3 g salt\n2 ml oil\n\nMethod.\nSift the salt. Bake the oil." ++
        ofString " Set aside. Put oil into 2nd mixing bowl. Sift the salt until sifted.\n" ++
        ofString "Stir for 2 minutes. Bake until BAKED. Serve with SAUCE. Refrigerate for 2 hours." ++
        ofString "\n\nServes 1.\n\nSauce.\n\nMethod.\n" ++
        ofString "Pour contents of mixing bowl 2 into the 3rd baking dish."
    ∃ p, Program.ofText book = .ok p ∧ p.WellFormed := by
  intro book
  have hloads : (Program.ofText book).isOk := by decide +kernel
  cases hp : Program.ofText book with
  | error e => simp [hp, Except.isOk, Except.toBool] at hloads
  | ok p => exact ⟨p, rfl, wellFormed_of_ofText hp⟩

end Cookbook
