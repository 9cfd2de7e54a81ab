/-!
# Cookbook.Shelf

Things that stand in the order of their labels: numbered bowls and dishes,
ingredients and recipes by name.  A label stands on a shelf at most once.

A shelf is determined by what its labels find (`Shelf.ext_get?`), so two ways
of filling it that find the same things give equal shelves.
-/

namespace Cookbook

/-- Labelled things in strictly ascending order of their labels. -/
structure Shelf (κ α : Type) [Ord κ] where
  entries : List (κ × α) := []
  ascending : entries.Pairwise fun a b => compare a.1 b.1 = .lt := by exact .nil

namespace Shelf

variable {κ α : Type} [Ord κ]

instance [DecidableEq κ] [DecidableEq α] : DecidableEq (Shelf κ α) := fun s t =>
  if h : s.entries = t.entries then
    isTrue (by cases s; cases t; simp_all)
  else isFalse fun e => h (by rw [e])

/-! ## Operations -/

/-- The shelf with nothing on it. -/
def empty : Shelf κ α := {}

/-- The first thing with a label in a list of labelled things. -/
def find? [DecidableEq κ] (k : κ) : List (κ × α) → Option α
  | [] => none
  | e :: rest => if k = e.1 then some e.2 else find? k rest

/-- The thing with a label. -/
def get? [DecidableEq κ] (s : Shelf κ α) (k : κ) : Option α := find? k s.entries

/-- Whether a label is in use. -/
def contains [DecidableEq κ] (s : Shelf κ α) (k : κ) : Bool := (s.get? k).isSome

@[simp] theorem get?_empty [DecidableEq κ] (k : κ) : (empty : Shelf κ α).get? k = none := rfl

/-- Puts a thing in its place, in place of one with the same label. -/
def place (k : κ) (a : α) : List (κ × α) → List (κ × α)
  | [] => [(k, a)]
  | e :: rest =>
    match compare k e.1 with
    | .lt => (k, a) :: e :: rest
    | .eq => (k, a) :: rest
    | .gt => e :: place k a rest

theorem ne_of_lt [Std.LawfulEqOrd κ] {k k' : κ} (h : compare k k' = .lt) : k ≠ k' :=
  fun e => by simp [e] at h

theorem find?_eq_none_of_lt [Std.LawfulEqOrd κ] [DecidableEq κ] {k : κ} {l : List (κ × α)}
    (h : ∀ e ∈ l, compare k e.1 = .lt) : find? k l = none := by
  induction l with
  | nil => rfl
  | cons f rest ih =>
    simp only [find?, ne_of_lt (h f (by simp)), if_false]
    exact ih fun e he => h e (by simp [he])

omit [Ord κ] in
theorem mem_of_find? [DecidableEq κ] {k : κ} {a : α} {l : List (κ × α)}
    (h : find? k l = some a) : (k, a) ∈ l := by
  induction l with
  | nil => cases h
  | cons e l ih =>
    rw [find?] at h
    split at h
    · next hk =>
      cases h
      rw [hk]
      exact List.mem_cons_self
    · exact List.mem_cons_of_mem e (ih h)

omit [Ord κ] in
theorem find?_of_mem [DecidableEq κ] {k : κ} {a : α} {l : List (κ × α)}
    (hl : l.Pairwise fun a b => a.1 ≠ b.1) (h : (k, a) ∈ l) : find? k l = some a := by
  induction l with
  | nil => cases h
  | cons e l ih =>
    rw [List.pairwise_cons] at hl
    rcases List.mem_cons.1 h with rfl | hmem
    · rw [find?, if_pos rfl]
    · rw [find?, if_neg (hl.1 _ hmem).symm, ih hl.2 hmem]

theorem mem_place {k : κ} {a : α} {e : κ × α} {l : List (κ × α)} (h : e ∈ place k a l) :
    e = (k, a) ∨ e ∈ l := by
  induction l with
  | nil => simpa [place] using h
  | cons f rest ih =>
    simp only [place] at h
    split at h <;> simp only [List.mem_cons] at h ⊢ <;> grind

theorem find?_place [Std.LawfulEqOrd κ] [DecidableEq κ] (k k' : κ) (a : α) (l : List (κ × α)) :
    find? k' (place k a l) = if k' = k then some a else find? k' l := by
  induction l with
  | nil => simp [place, find?]
  | cons f rest ih =>
    simp only [place]
    split
    · simp [find?]
    · next heq =>
      have hk : k = f.1 := Std.LawfulEqCmp.eq_of_compare heq
      simp only [find?, ← hk]
      split <;> rfl
    · next hgt =>
      have hk : k ≠ f.1 := fun h => by simp [h] at hgt
      simp only [find?, ih]
      split
      · next h => rw [if_neg]; exact fun h' => hk (h' ▸ h)
      · rfl

theorem pairwise_place [Std.TransOrd κ] [Std.LawfulEqOrd κ] (k : κ) (a : α) {l : List (κ × α)}
    (h : l.Pairwise fun a b => compare a.1 b.1 = .lt) :
    (place k a l).Pairwise fun a b => compare a.1 b.1 = .lt := by
  induction l with
  | nil => simp [place]
  | cons f rest ih =>
    rw [List.pairwise_cons] at h
    simp only [place]
    split
    · next hlt =>
      refine List.pairwise_cons.2 ⟨fun e he => ?_, List.pairwise_cons.2 h⟩
      rcases List.mem_cons.1 he with rfl | he
      · exact hlt
      · exact Std.TransCmp.lt_trans hlt (h.1 e he)
    · next heq =>
      have hk : k = f.1 := Std.LawfulEqCmp.eq_of_compare heq
      refine List.pairwise_cons.2 ⟨fun e he => ?_, h.2⟩
      simpa [hk] using h.1 e he
    · next hgt =>
      refine List.pairwise_cons.2 ⟨fun e he => ?_, ih h.2⟩
      rcases mem_place he with rfl | he
      · exact Std.OrientedCmp.lt_of_gt hgt
      · exact h.1 e he

variable [Std.TransOrd κ] [Std.LawfulEqOrd κ]

/-- The shelf with a thing put in its place. -/
def insert (s : Shelf κ α) (k : κ) (a : α) : Shelf κ α where
  entries := place k a s.entries
  ascending := pairwise_place k a s.ascending

/-- The shelf with a thing put in its place, unless the label is in use. -/
def insertNew [DecidableEq κ] (s : Shelf κ α) (k : κ) (a : α) : Shelf κ α :=
  if s.contains k then s else s.insert k a

/-- Puts everything of a second shelf onto the first. -/
def overlay (s t : Shelf κ α) : Shelf κ α := t.entries.foldl (fun s e => s.insert e.1 e.2) s

/-- Puts labelled things onto an empty shelf, one after the other. -/
def ofList (l : List (κ × α)) : Shelf κ α := l.foldl (fun s e => s.insert e.1 e.2) empty

/-! ## What a label finds -/

variable [DecidableEq κ]

/-- A label finds what was put there last. -/
theorem get?_insert (s : Shelf κ α) (k k' : κ) (a : α) :
    (s.insert k a).get? k' = if k' = k then some a else s.get? k' :=
  find?_place k k' a s.entries

@[simp] theorem get?_insert_self (s : Shelf κ α) (k : κ) (a : α) :
    (s.insert k a).get? k = some a := by
  simp [get?_insert]

theorem get?_insert_of_ne (s : Shelf κ α) {k k' : κ} (a : α) (h : k' ≠ k) :
    (s.insert k a).get? k' = s.get? k' := by
  simp [get?_insert, h]

omit [Std.TransOrd κ] in
/-- A label finds exactly what stands on the shelf with it. -/
theorem get?_eq_some_iff {s : Shelf κ α} {k : κ} {a : α} :
    s.get? k = some a ↔ (k, a) ∈ s.entries :=
  ⟨mem_of_find?, find?_of_mem (s.ascending.imp ne_of_lt)⟩

/-- What has its place keeps it. -/
theorem get?_insertNew (s : Shelf κ α) (k k' : κ) (a : α) :
    (s.insertNew k a).get? k' =
      if k' = k ∧ s.get? k = none then some a else s.get? k' := by
  rw [insertNew, contains]
  cases h : s.get? k with
  | none => simp [get?_insert]
  | some b => simp

theorem eq_of_find?_eq {l m : List (κ × α)}
    (hl : l.Pairwise fun a b => compare a.1 b.1 = .lt)
    (hm : m.Pairwise fun a b => compare a.1 b.1 = .lt)
    (h : ∀ k, find? k l = find? k m) : l = m := by
  induction l generalizing m with
  | nil =>
    cases m with
    | nil => rfl
    | cons f rest => simpa [find?] using h f.1
  | cons e l ih =>
    cases m with
    | nil => simpa [find?] using h e.1
    | cons f m =>
      rw [List.pairwise_cons] at hl hm
      have key : e.1 = f.1 := by
        cases hc : compare e.1 f.1 with
        | eq => exact Std.LawfulEqCmp.eq_of_compare hc
        | lt =>
          have he := h e.1
          have hnone : find? e.1 m = none :=
            find?_eq_none_of_lt fun g hg => Std.TransCmp.lt_trans hc (hm.1 g hg)
          simp [find?, ne_of_lt hc, hnone] at he
        | gt =>
          have hf := h f.1
          have hlt : compare f.1 e.1 = .lt := Std.OrientedCmp.lt_of_gt hc
          have hnone : find? f.1 l = none :=
            find?_eq_none_of_lt fun g hg => Std.TransCmp.lt_trans hlt (hl.1 g hg)
          simp [find?, ne_of_lt hlt, hnone] at hf
      have val : e.2 = f.2 := by
        have he := h e.1
        simpa [find?, key] using he
      have tails : l = m := by
        refine ih hl.2 hm.2 fun k => ?_
        by_cases hk : k = e.1
        · rw [find?_eq_none_of_lt, find?_eq_none_of_lt]
          · exact fun g hg => by rw [hk, key]; exact hm.1 g hg
          · exact fun g hg => by rw [hk]; exact hl.1 g hg
        · have := h k
          simpa [find?, hk, ← key] using this
      rw [tails, Prod.ext key val]

/-- Two shelves are equal if every label finds the same on both. -/
theorem ext_get? {s t : Shelf κ α} (h : ∀ k, s.get? k = t.get? k) : s = t := by
  have he : s.entries = t.entries := eq_of_find?_eq s.ascending t.ascending h
  cases s
  cases t
  simp_all

end Shelf

end Cookbook
