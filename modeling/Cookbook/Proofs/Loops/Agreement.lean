import Cookbook.Instruction.Sentence
import Cookbook.Proofs.Loops.Resolution
import Mathlib.Data.List.Forall2

/-!
# Cookbook.Proofs.Loops.Agreement

Where statements stand in a book has no say in how their loops are paired.  Of
the loops of two methods that ask for the same, the same is known after every
statement but for the places of the starts (`Loops.Alike`), so the paired
methods ask for the same (`exists_resolve_of_agrees`).  Nor does pairing change
what a statement is written as (`sentence_connect`).
-/

namespace Cookbook

namespace Instruction.Agrees

variable {i j : Instruction}

theorem action_eq (h : j.Agrees i) : j.action = i.action := (Instruction.mk.inj h).1

theorem ingredient_eq (h : j.Agrees i) : j.ingredient = i.ingredient := (Instruction.mk.inj h).2.1

theorem name_eq (h : j.Agrees i) : j.name = i.name := (Instruction.mk.inj h).2.2.1

theorem keyword_eq (h : j.Agrees i) : j.keyword = i.keyword := (Instruction.mk.inj h).2.2.2.1

theorem bowl_eq (h : j.Agrees i) : j.bowl = i.bowl := (Instruction.mk.inj h).2.2.2.2.1

theorem dish_eq (h : j.Agrees i) : j.dish = i.dish := (Instruction.mk.inj h).2.2.2.2.2.1

end Instruction.Agrees

namespace Loops

/-- What decides which loop is ended and which is left. -/
def Opening.key (o : Opening) : Nat × Text := (o.index, o.start.keyword)

/-- Whether the same is known of two methods, but for the places of the starts
that are still open. -/
structure Alike (l' l : Loops) : Prop where
  pending : l'.pending.map Opening.key = l.pending.map Opening.key
  pairs : l'.pairs = l.pairs
  exits : l'.exits = l.exits

section

variable {l l' m : Loops} {n : Nat} {i j : Instruction}

/-- The same loop is found by its closing word. -/
theorem Alike.find?_pending (hl : l'.Alike l) (k : Text) :
    (l'.pending.find? fun o => o.start.keyword = k).map Opening.key =
      (l.pending.find? fun o => o.start.keyword = k).map Opening.key := by
  have hfind (p : List Opening) : (p.map Opening.key).find? (fun q => q.2 = k) =
      (p.find? fun o => o.start.keyword = k).map Opening.key := List.find?_map
  rw [← hfind, ← hfind, hl.pending]

theorem Alike.eraseP_pending (hl : l'.Alike l) (k : Text) :
    (l'.pending.eraseP fun o => o.start.keyword = k).map Opening.key =
      (l.pending.eraseP fun o => o.start.keyword = k).map Opening.key := by
  have herase (p : List Opening) : (p.map Opening.key).eraseP (fun q => q.2 = k) =
      (p.eraseP fun o => o.start.keyword = k).map Opening.key := List.eraseP_map
  rw [← herase, ← herase, hl.pending]

/-- Noting statements that ask for the same keeps two methods alike. -/
theorem Alike.note (hl : l'.Alike l) (hi : j.Agrees i) (h : l.note n i = .ok m) :
    ∃ m', l'.note n j = .ok m' ∧ m'.Alike m := by
  by_cases hstart : i.action = .loopStart
  · rw [note_of_loopStart hstart] at h
    cases h
    refine ⟨_, note_of_loopStart (hi.action_eq.trans hstart), ?_, hl.pairs, hl.exits⟩
    simp only [List.map_cons, hl.pending, Opening.key, hi.name_eq]
  by_cases hend : i.action = .loopEnd
  · cases hfind : l.pending.find? (fun o => o.start.keyword = i.keyword) with
    | none => simp [Loops.note, hend, hfind] at h
    | some o =>
      rw [note_of_loopEnd hend hfind] at h
      cases h
      have hsame := hl.find?_pending i.keyword
      rw [hfind, Option.map_some, Option.map_eq_some_iff] at hsame
      obtain ⟨o', hfind', hkey⟩ := hsame
      rw [← hi.keyword_eq] at hfind'
      refine ⟨_, note_of_loopEnd (hi.action_eq.trans hend) hfind', ?_, ?_, hl.exits⟩
      · rw [hi.keyword_eq]
        exact hl.eraseP_pending i.keyword
      · simp only [(Prod.mk.inj hkey).1, hl.pairs]
  by_cases haside : i.action = .setAside
  · cases hpending : l.pending with
    | nil => simp [Loops.note, haside, hpending] at h
    | cons o below =>
      rw [note_of_setAside haside hpending] at h
      cases h
      have hsame := hl.pending
      rw [hpending, List.map_cons, List.map_eq_cons_iff] at hsame
      obtain ⟨o', below', hpending', hkey, -⟩ := hsame
      refine ⟨_, note_of_setAside (hi.action_eq.trans haside) hpending', hl.pending, hl.pairs, ?_⟩
      simp only [(Prod.mk.inj hkey).1, hl.exits]
  · rw [note_of_other hstart hend haside] at h
    cases h
    rw [← hi.action_eq] at hstart hend haside
    exact ⟨l', note_of_other hstart hend haside, hl⟩

/-- The same holds for all statements of two methods. -/
theorem Alike.noteAll {is js : List Instruction} (hl : l'.Alike l)
    (hi : List.Forall₂ Instruction.Agrees js is) (h : l.noteAll n is = .ok m) :
    ∃ m', l'.noteAll n js = .ok m' ∧ m'.Alike m := by
  induction hi generalizing l l' n with
  | nil =>
    cases h
    exact ⟨l', rfl, hl⟩
  | @cons j i js is hj hjs ih =>
    rw [Loops.noteAll] at h
    cases hnote : l.note n i with
    | error cause => simp [hnote] at h
    | ok l₁ =>
      simp only [hnote] at h
      obtain ⟨l₁', hnote', hl₁⟩ := hl.note hj hnote
      obtain ⟨m', hrest, hm⟩ := ih hl₁ h
      refine ⟨m', ?_, hm⟩
      rw [Loops.noteAll, hnote']
      exact hrest

theorem unplaced_connect (l : Loops) (n : Nat) (i : Instruction) :
    (l.connect n i).unplaced = l.connect n i.unplaced := by
  cases ha : i.action <;> simp [connect, Instruction.unplaced, ha]

theorem Alike.connect (hl : l'.Alike l) (hi : j.Agrees i) (n : Nat) :
    (l'.connect n j).Agrees (l.connect n i) := by
  have hsame (x : Instruction) : l'.connect n x = l.connect n x := by
    simp only [Loops.connect, endOf, startOf, leftAt, hl.pairs, hl.exits]
  rw [Instruction.Agrees, unplaced_connect, unplaced_connect, hsame, hi]

theorem forall₂_mapIdx {is js : List Instruction} {f g : Nat → Instruction → Instruction}
    (h : List.Forall₂ Instruction.Agrees js is)
    (hfg : ∀ n i j, j.Agrees i → (f n j).Agrees (g n i)) :
    List.Forall₂ Instruction.Agrees (js.mapIdx f) (is.mapIdx g) := by
  induction h generalizing f g with
  | nil => exact .nil
  | cons hj hjs ih =>
    rw [List.mapIdx_cons, List.mapIdx_cons]
    exact .cons (hfg 0 _ _ hj) (ih fun n i j => hfg (n + 1) i j)

/-- A method that asks for the same as one whose loops can be paired has its
loops paired in the same way. -/
theorem exists_resolve_of_agrees {is js resolved : List Instruction}
    (hi : List.Forall₂ Instruction.Agrees js is) (h : resolve is = .ok resolved) :
    ∃ resolved', resolve js = .ok resolved' ∧
      List.Forall₂ Instruction.Agrees resolved' resolved := by
  obtain ⟨l, hl, rfl⟩ := resolve_eq_ok_iff.1 h
  obtain ⟨hnote, hpending⟩ := ofMethod_eq_ok_iff.1 hl
  obtain ⟨l', hnote', halike⟩ := Alike.noteAll ⟨rfl, rfl, rfl⟩ hi hnote
  have hpending' : l'.pending = [] := by
    have hmap := halike.pending
    rwa [hpending, List.map_nil, List.map_eq_nil_iff] at hmap
  have hl' : ofMethod js = .ok l' := ofMethod_eq_ok_iff.2 ⟨hnote', hpending'⟩
  exact ⟨js.mapIdx l'.connect, resolve_eq_ok_iff.2 ⟨l', hl', rfl⟩,
    forall₂_mapIdx hi fun n i j hj => halike.connect hj n⟩

end

/-- What pairing loops leaves alone in every statement is the same in a paired
method. -/
theorem map_of_resolve {β : Type} {f : Instruction → β} {is resolved : List Instruction}
    (hf : ∀ (l : Loops) n i, f (l.connect n i) = f i) (h : resolve is = .ok resolved) :
    resolved.map f = is.map f := by
  obtain ⟨l, -, rfl⟩ := resolve_eq_ok_iff.1 h
  apply List.ext_getElem?
  intro n
  rw [List.getElem?_map, List.getElem?_mapIdx, List.getElem?_map, Option.map_map]
  simp only [Function.comp_def, hf]

/-- Pairing loops does not change how statements are written. -/
theorem sentence_connect (l : Loops) (n : Nat) (i : Instruction) :
    (l.connect n i).sentence = i.sentence := by
  cases ha : i.action <;>
    simp [connect, Instruction.sentence, Instruction.wording, Instruction.bowlPhrase,
      Instruction.dishPhrase, ha]

theorem map_sentence_of_resolve {is resolved : List Instruction} (h : resolve is = .ok resolved) :
    resolved.map Instruction.sentence = is.map Instruction.sentence :=
  map_of_resolve sentence_connect h

/-- Nor what they serve with. -/
theorem action_name_connect (l : Loops) (n : Nat) (i : Instruction) :
    ((l.connect n i).action, (l.connect n i).name) = (i.action, i.name) := by
  cases ha : i.action <;> simp [connect, ha]

end Loops

end Cookbook
