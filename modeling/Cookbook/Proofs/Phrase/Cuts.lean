import Cookbook.Phrase
import Cookbook.Proofs.Token.Lexemes

/-!
# Cookbook.Proofs.Phrase.Cuts

What it means for a sentence to fit a pattern, said without the order in which
the readings are tried: the sentence falls into consecutive segments, one per
element, and each element takes its segment (`Element.Takes`, `Pattern.Cuts`).

`Pattern.captures?` is the first cut in that order, with what its elements
capture.  It is there exactly if there is a cut (`captures?_eq_none_iff`), so where
a sentence has one cut it is that (`captures?_eq_of_iff`).  Where the tokens stand
makes no difference to it (`captures?_map_bare`).
-/

namespace Cookbook

/-! ## Segments -/

namespace Vessel

/-- The words of a vessel with an ordinal in front, with a number behind, or
with neither. -/
def Counts (v : Vessel) (s : List Token) (n : UInt32) : Prop :=
  ∃ a b, a.lexeme = v.words.1 ∧ b.lexeme = v.words.2 ∧
    (s = [a, b] ∧ n = 1 ∨
      (∃ o, s = [o, a, b] ∧ ordinal? o.lexeme = some n) ∨
      ∃ c, s = [a, b, c] ∧ c.vesselNumber? = some n)

/-- A vessel as it may be written, with or without `the`. -/
def Names (v : Vessel) (s : List Token) (n : UInt32) : Prop :=
  v.Counts s n ∨ ∃ t s', s = t :: s' ∧ t.lexeme = "the" ∧ v.Counts s' n

theorem mem_afterThe_iff {s r : List Token} :
    r ∈ afterThe s ↔ r = s ∨ ∃ t, s = t :: r ∧ t.lexeme = "the" := by
  cases s with
  | nil => simp [afterThe]
  | cons t s =>
    simp only [afterThe]
    split <;> grind

theorem mem_afterOrdinal_iff {s r : List Token} {o : Option UInt32} :
    (o, r) ∈ afterOrdinal s ↔
      o = none ∧ r = s ∨ ∃ t n, s = t :: r ∧ ordinal? t.lexeme = some n ∧ o = some n := by
  cases s with
  | nil => simp [afterOrdinal]
  | cons t s =>
    simp only [afterOrdinal]
    split <;> grind

theorem mem_afterWords_iff {s r : List Token} {o : Option UInt32} {n : UInt32} :
    (n, r) ∈ afterWords o s ↔
      r = s ∧ n = o.getD 1 ∨ o = none ∧ ∃ t, s = t :: r ∧ t.vesselNumber? = some n := by
  cases o with
  | some m => simp [afterWords, and_comm]
  | none =>
    cases s with
    | nil => simp [afterWords, and_comm]
    | cons t s =>
      simp only [afterWords]
      split <;> grind

/-- What is read as a vessel is what names one. -/
theorem mem_readings_iff {v : Vessel} {s r : List Token} {n : UInt32} :
    (n, r) ∈ v.readings s ↔ ∃ seg, s = seg ++ r ∧ v.Names seg n := by
  have hcount (s : List Token) :
      (∃ o s', (o, s') ∈ afterOrdinal s ∧ ∃ a b rest, s' = a :: b :: rest ∧
        a.lexeme = v.words.1 ∧ b.lexeme = v.words.2 ∧ (n, r) ∈ afterWords o rest) ↔
      ∃ seg, s = seg ++ r ∧ v.Counts seg n := by
    simp only [mem_afterOrdinal_iff, mem_afterWords_iff, Counts]
    constructor
    · rintro ⟨o, s', ⟨rfl, rfl⟩ | ⟨t, m, rfl, hm, rfl⟩, a, b, rest, rfl, ha, hb, h⟩
      · rcases h with ⟨rfl, rfl⟩ | ⟨-, c, rfl, hc⟩
        · exact ⟨[a, b], rfl, a, b, ha, hb, .inl ⟨rfl, rfl⟩⟩
        · exact ⟨[a, b, c], rfl, a, b, ha, hb, .inr (.inr ⟨c, rfl, hc⟩)⟩
      · rcases h with ⟨rfl, rfl⟩ | ⟨h, -⟩
        · exact ⟨[t, a, b], rfl, a, b, ha, hb, .inr (.inl ⟨t, rfl, hm⟩)⟩
        · simp at h
    · rintro ⟨seg, rfl, a, b, ha, hb, ⟨rfl, rfl⟩ | ⟨o, rfl, ho⟩ | ⟨c, rfl, hc⟩⟩
      · exact ⟨none, _, .inl ⟨rfl, rfl⟩, a, b, r, rfl, ha, hb, .inl ⟨rfl, rfl⟩⟩
      · exact ⟨some n, _, .inr ⟨o, n, rfl, ho, rfl⟩, a, b, r, rfl, ha, hb, .inl ⟨rfl, rfl⟩⟩
      · exact ⟨none, _, .inl ⟨rfl, rfl⟩, a, b, c :: r, rfl, ha, hb, .inr ⟨rfl, c, rfl, hc⟩⟩
  have hread : (n, r) ∈ v.readings s ↔ ∃ s₁ ∈ afterThe s, ∃ o s', (o, s') ∈ afterOrdinal s₁ ∧
      ∃ a b rest, s' = a :: b :: rest ∧ a.lexeme = v.words.1 ∧ b.lexeme = v.words.2 ∧
        (n, r) ∈ afterWords o rest := by
    simp only [readings, List.mem_flatMap, Prod.exists]
    refine exists_congr fun s₁ => and_congr_right fun _ => exists_congr fun o =>
      exists_congr fun s' => and_congr_right fun _ => ?_
    rcases s' with _ | ⟨a, _ | ⟨b, rest⟩⟩
    · simp
    · simp
    · simp only [List.mem_ite_nil_right]
      constructor
      · exact fun h => ⟨a, b, rest, rfl, h.1.1, h.1.2, h.2⟩
      · rintro ⟨_, _, _, ⟨⟩, ha, hb, h⟩
        exact ⟨⟨ha, hb⟩, h⟩
  rw [hread]
  simp only [hcount, mem_afterThe_iff, Names]
  constructor
  · rintro ⟨s₁, rfl | ⟨t, rfl, ht⟩, seg, rfl, h⟩
    · exact ⟨seg, rfl, .inl h⟩
    · exact ⟨t :: seg, rfl, .inr ⟨t, seg, rfl, ht, h⟩⟩
  · rintro ⟨seg, rfl, h | ⟨t, seg, rfl, ht, h⟩⟩
    · exact ⟨_, .inl rfl, seg, rfl, h⟩
    · exact ⟨_, .inr ⟨t, rfl, ht⟩, seg, rfl, h⟩

end Vessel

namespace Element

/-- Whether an element takes a segment of a sentence, and what it captures. -/
def Takes : Element → List Token → Capture → Prop
  | word w, s, c => ∃ t, s = [t] ∧ t.lexeme = w ∧ c = .nothing
  | optional w, s, c => (s = [] ∨ ∃ t, s = [t] ∧ t.lexeme = w) ∧ c = .nothing
  | ingredient, s, c => s ≠ [] ∧ c = .ingredient s
  | recipe, s, c => s ≠ [] ∧ c = .recipe s
  | verb, s, c => ∃ t, s = [t] ∧ t.isWord ∧ c = .verb t.lexeme
  | verbed, s, c => ∃ t, s = [t] ∧ t.isWord ∧ c = .verbed t.lexeme
  | number, s, c => ∃ t n, s = [t] ∧ t.kind = .number n ∧ c = .number n
  | vessel v, s, c => ∃ n, v.Names s n ∧ c = .vessel v n

theorem mem_cuts_iff {α : Type} {s front rest : List α} :
    (front, rest) ∈ cuts s ↔ front ≠ [] ∧ s = front ++ rest := by
  constructor
  · intro h
    exact ⟨(append_of_mem_cuts h).1, (append_of_mem_cuts h).2.symm⟩
  · rintro ⟨hne, rfl⟩
    induction front with
    | nil => exact absurd rfl hne
    | cons x front ih =>
      rw [List.cons_append, cuts, List.mem_cons, List.mem_map]
      cases front with
      | nil => exact .inl rfl
      | cons y front => exact .inr ⟨_, ih (by simp), rfl⟩

theorem mem_literal_iff {w : Text} {s r : List Token} {c : Capture} :
    (c, r) ∈ literal w s ↔ ∃ t, s = t :: r ∧ t.lexeme = w ∧ c = .nothing := by
  cases s with
  | nil => simp [literal]
  | cons t s =>
    simp only [literal]
    split <;> grind

theorem mem_oneWord_iff {f : Text → Capture} {s r : List Token} {c : Capture} :
    (c, r) ∈ oneWord f s ↔ ∃ t, s = t :: r ∧ t.isWord ∧ c = f t.lexeme := by
  cases s with
  | nil => simp [oneWord]
  | cons t s =>
    simp only [oneWord]
    split <;> grind

theorem mem_oneNumber_iff {s r : List Token} {c : Capture} :
    (c, r) ∈ oneNumber s ↔ ∃ t n, s = t :: r ∧ t.kind = .number n ∧ c = .number n := by
  cases s with
  | nil => simp [oneNumber]
  | cons t s =>
    simp only [oneNumber]
    split <;> grind

/-- The readings of an element are the segments it takes, with the rest. -/
theorem mem_readings_iff {e : Element} {s r : List Token} {c : Capture} :
    (c, r) ∈ e.readings s ↔ ∃ seg, s = seg ++ r ∧ e.Takes seg c := by
  cases e with
  | word w => simp only [readings, mem_literal_iff, Takes]; grind
  | optional w =>
    simp only [readings, List.mem_append, mem_literal_iff, List.mem_singleton, Takes]
    grind
  | ingredient => simp only [readings, List.mem_map, Prod.exists, mem_cuts_iff, Takes]; grind
  | recipe => simp only [readings, List.mem_map, Prod.exists, mem_cuts_iff, Takes]; grind
  | verb => simp only [readings, mem_oneWord_iff, Takes]; grind
  | verbed => simp only [readings, mem_oneWord_iff, Takes]; grind
  | number => simp only [readings, mem_oneNumber_iff, Takes]; grind
  | vessel v =>
    simp only [readings, List.mem_map, Prod.exists, Vessel.mem_readings_iff, Takes]
    grind

end Element

/-! ## Cuts -/

namespace Pattern

/-- Whether a sentence falls into segments that the elements of a pattern take,
and what they capture. -/
def Cuts : Pattern → List Token → List Capture → Prop
  | [], s, cs => s = [] ∧ cs = []
  | e :: es, s, cs =>
    ∃ seg rest c cs', s = seg ++ rest ∧ cs = c :: cs' ∧ e.Takes seg c ∧ Cuts es rest cs'

/-- What the elements take when the whole sentence is cut among them, by the
first cut in order of preference. -/
def captures? : Pattern → List Token → Option (List Capture)
  | [], [] => some []
  | [], _ :: _ => none
  | e :: es, sentence =>
    (e.readings sentence).findSome? fun (capture, rest) => (captures? es rest).map (capture :: ·)

theorem cuts_of_captures? {p : Pattern} {s : List Token} {cs : List Capture}
    (h : p.captures? s = some cs) : p.Cuts s cs := by
  induction p generalizing s cs with
  | nil =>
    cases s with
    | nil => simpa [captures?, Cuts, eq_comm] using h
    | cons t s => simp [captures?] at h
  | cons e es ih =>
    rw [captures?] at h
    obtain ⟨⟨c, rest⟩, hmem, hc⟩ := List.exists_of_findSome?_eq_some h
    obtain ⟨cs', hcs', rfl⟩ := Option.map_eq_some_iff.1 hc
    obtain ⟨seg, rfl, htakes⟩ := Element.mem_readings_iff.1 hmem
    exact ⟨seg, rest, c, cs', rfl, rfl, htakes, ih hcs'⟩

theorem captures?_ne_none_of_cuts {p : Pattern} {s : List Token} {cs : List Capture}
    (h : p.Cuts s cs) : p.captures? s ≠ none := by
  induction p generalizing s cs with
  | nil =>
    obtain ⟨rfl, rfl⟩ := h
    simp [captures?]
  | cons e es ih =>
    obtain ⟨seg, rest, c, cs', rfl, rfl, htakes, hcuts⟩ := h
    have hmem : (c, rest) ∈ e.readings (seg ++ rest) :=
      Element.mem_readings_iff.2 ⟨seg, rfl, htakes⟩
    rw [captures?, ne_eq, List.findSome?_eq_none_iff]
    intro hnone
    have hrest := hnone _ hmem
    rw [Option.map_eq_none_iff] at hrest
    exact ih hcuts hrest

theorem captures?_eq_none_iff {p : Pattern} {s : List Token} :
    p.captures? s = none ↔ ∀ cs, ¬ p.Cuts s cs := by
  constructor
  · exact fun h cs hcs => captures?_ne_none_of_cuts hcs h
  · intro h
    cases hc : p.captures? s with
    | none => rfl
    | some cs => exact absurd (cuts_of_captures? hc) (h cs)

/-- Where a sentence has one cut, that is the first. -/
theorem captures?_eq_of_iff {p : Pattern} {s : List Token} {ds : List Capture}
    (h : ∀ cs, p.Cuts s cs ↔ cs = ds) : p.captures? s = some ds := by
  cases hc : p.captures? s with
  | none => exact absurd hc (captures?_ne_none_of_cuts ((h ds).2 rfl))
  | some cs => rw [(h cs).1 (cuts_of_captures? hc)]

end Pattern

/-! ## Where the tokens stand -/

/-- What an element took, without the places of the tokens. -/
def Capture.bare : Capture → Capture
  | .ingredient words => .ingredient (words.map Token.bare)
  | .recipe words => .recipe (words.map Token.bare)
  | c => c

theorem Token.join_map_bare (ts : List Token) : Token.join (ts.map Token.bare) = Token.join ts := by
  simp [Token.join, List.foldl_map]

namespace Vessel

theorem afterThe_map_bare (s : List Token) :
    afterThe (s.map Token.bare) = (afterThe s).map (List.map Token.bare) := by
  cases s with
  | nil => rfl
  | cons t s =>
    by_cases h : t.lexeme = "the" <;> simp [afterThe, h]

theorem afterOrdinal_map_bare (s : List Token) :
    afterOrdinal (s.map Token.bare) =
      (afterOrdinal s).map fun (o, r) => (o, r.map Token.bare) := by
  cases s with
  | nil => rfl
  | cons t s =>
    simp only [afterOrdinal, List.map_cons, Token.lexeme_bare]
    split <;> rfl

theorem afterWords_map_bare (o : Option UInt32) (s : List Token) :
    afterWords o (s.map Token.bare) =
      (afterWords o s).map fun (n, r) => (n, r.map Token.bare) := by
  cases o with
  | some m => rfl
  | none =>
    cases s with
    | nil => rfl
    | cons t s =>
      have hn : t.bare.vesselNumber? = t.vesselNumber? := rfl
      simp only [afterWords, List.map_cons, hn]
      split <;> rfl

theorem readings_map_bare (v : Vessel) (s : List Token) :
    v.readings (s.map Token.bare) = (v.readings s).map fun (n, r) => (n, r.map Token.bare) := by
  simp only [readings, afterThe_map_bare, List.flatMap_map, List.map_flatMap,
    afterOrdinal_map_bare]
  congr 1
  funext s₁
  congr 1
  funext ⟨o, s'⟩
  rcases s' with _ | ⟨a, _ | ⟨b, rest⟩⟩
  · rfl
  · rfl
  · simp only [List.map_cons, Token.lexeme_bare, afterWords_map_bare]
    split <;> rfl

end Vessel

theorem cuts_map {α β : Type} (f : α → β) (l : List α) :
    cuts (l.map f) = (cuts l).map fun (front, rest) => (front.map f, rest.map f) := by
  induction l with
  | nil => rfl
  | cons x xs ih => simp [cuts, ih, Function.comp_def]

theorem Element.readings_map_bare (e : Element) (s : List Token) :
    e.readings (s.map Token.bare) =
      (e.readings s).map fun (c, r) => (c.bare, r.map Token.bare) := by
  have hlit (w : Text) : literal w (s.map Token.bare) =
      (literal w s).map fun (c, r) => (c.bare, r.map Token.bare) := by
    cases s with
    | nil => rfl
    | cons t s =>
      by_cases h : t.lexeme = w <;> simp [literal, h, Capture.bare]
  have hword (f : Text → Capture) (hf : ∀ w, (f w).bare = f w) :
      oneWord f (s.map Token.bare) =
        (oneWord f s).map fun (c, r) => (c.bare, r.map Token.bare) := by
    cases s with
    | nil => rfl
    | cons t s =>
      have hw : t.bare.isWord = t.isWord := rfl
      simp only [oneWord, List.map_cons, hw, Token.lexeme_bare]
      split <;> simp [hf]
  cases e with
  | word w => exact hlit w
  | optional w => simp [readings, hlit, Capture.bare]
  | ingredient => simp [readings, cuts_map, Capture.bare]
  | recipe => simp [readings, cuts_map, Capture.bare]
  | verb => exact hword .verb fun _ => rfl
  | verbed => exact hword .verbed fun _ => rfl
  | number =>
    cases s with
    | nil => rfl
    | cons t s =>
      simp only [readings, oneNumber, List.map_cons, Token.kind_bare]
      split <;> rfl
  | vessel v => simp [readings, Vessel.readings_map_bare, Capture.bare]

theorem Pattern.captures?_map_bare (p : Pattern) (s : List Token) :
    p.captures? (s.map Token.bare) = (p.captures? s).map (List.map Capture.bare) := by
  induction p generalizing s with
  | nil => cases s <;> rfl
  | cons e es ih =>
    rw [captures?, captures?, Element.readings_map_bare, List.findSome?_map, List.map_findSome?]
    congr 1
    funext ⟨c, r⟩
    simp only [Function.comp_apply, ih, Option.map_map]
    rfl

end Cookbook
