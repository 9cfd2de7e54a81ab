import Cookbook.Proofs.Phrase.Notes
import Cookbook.Proofs.Phrase.Vessels
import Mathlib.Data.List.Forall2

/-!
# Cookbook.Proofs.Phrase.FirstCut

Which cut of a sentence the search finds.  A cut gives every element of a pattern
a segment of the sentence (`Pattern.Divides`), and where an element can take more
than one segment some are preferred to others.  `Element.rank` says how: fewer
words rank before more, and what may be left out ranks before when it is taken.
Cuts are compared by their ranks, those of earlier elements first.

* The readings of an element come in the order of their ranks
  (`Element.pairwise_readings`).
* So the first cut in the order of the search is the one that ranks before all
  others (`Pattern.exists_first_of_captures?`).
* What is noted down for a placeholder is what the last of its elements took
  (`Captures.content_ofList`), and nothing of the tries that failed
  (`Pattern.match?_eq`).

`Pattern.match?_ofText` puts these together.
-/

namespace Cookbook

/-! ## Ranks -/

namespace Vessel

/-- The rank of a vessel without `the`, by its ordinal and its number. -/
def countRank : List Token → List Nat
  | [] => []
  | t :: s => if (ordinal? t.lexeme).isSome then [0, 1] else [1, if s.length = 1 then 1 else 0]

/-- The rank of a vessel, by its `the`, its ordinal and its number: 0 for what is
taken, 1 for what is left out. -/
def rank : List Token → List Nat
  | [] => []
  | t :: s => if t.lexeme = "the" then 0 :: countRank s else 1 :: countRank (t :: s)

end Vessel

/-- The rank of a segment that an element takes; low ranks are preferred. -/
def Element.rank : Element → List Token → List Nat
  | optional _, s => [if s = [] then 1 else 0]
  | ingredient, s => [s.length]
  | recipe, s => [s.length]
  | vessel _, s => Vessel.rank s
  | _, _ => []

namespace Vessel

variable {v : Vessel} {s r : List Token} {t : Token} {m n : UInt32}

theorem countRank_append_lt (h : v.Counts s m) (h' : v.Counts (s ++ t :: r) n) :
    countRank (s ++ t :: r) < countRank s := by
  have hword := v.ordinal?_words
  obtain ⟨a, b, ha, -, hs⟩ := h
  obtain ⟨a', b', ha', -, hs'⟩ := h'
  rcases hs with ⟨rfl, -⟩ | ⟨o, rfl, -⟩ | ⟨c, rfl, -⟩
  · rcases hs' with ⟨hs', -⟩ | ⟨o, hs', ho⟩ | ⟨c, hs', -⟩
    · simp at hs'
    · -- the first of the words is no ordinal
      grind
    · obtain ⟨-, -, -, rfl⟩ : a = a' ∧ b = b' ∧ t = c ∧ r = [] := by simpa using hs'
      have hrank : countRank [a, b, t] = [1, 0] ∧ countRank [a, b] = [1, 1] := by
        simp [countRank, ha, hword]
      rw [List.cons_append, List.cons_append, List.nil_append, hrank.1, hrank.2]
      decide
  · rcases hs' with ⟨hs', -⟩ | ⟨_, hs', -⟩ | ⟨_, hs', -⟩ <;> simp at hs'
  · rcases hs' with ⟨hs', -⟩ | ⟨_, hs', -⟩ | ⟨_, hs', -⟩ <;> simp at hs'

/-- Of two names of a vessel at the same place, the longer one ranks before. -/
theorem rank_append_lt (h : v.Names s m) (h' : v.Names (s ++ t :: r) n) :
    rank (s ++ t :: r) < rank s := by
  rcases h with h | ⟨u, s', rfl, hu, h⟩
  · cases s with
    | nil =>
      obtain ⟨a, b, -, -, ⟨hs, -⟩ | ⟨o, hs, -⟩ | ⟨c, hs, -⟩⟩ := h <;> cases hs
    | cons u s' =>
      have hu : u.lexeme ≠ "the" := h.ne_the
      rcases h' with h' | ⟨u', s'', hs, hu', -⟩
      · rw [List.cons_append, rank, rank, if_neg hu, if_neg hu]
        exact List.cons_lt_cons_iff.2 (.inr ⟨rfl, countRank_append_lt h h'⟩)
      · rw [List.cons_append, List.cons.injEq] at hs
        exact absurd (hs.1 ▸ hu') hu
  · rcases h' with h' | ⟨u', s'', hs, -, h'⟩
    · exact absurd hu h'.ne_the
    · rw [List.cons_append, List.cons.injEq] at hs
      obtain ⟨rfl, rfl⟩ := hs
      rw [List.cons_append, rank, rank, if_pos hu, if_pos hu]
      exact List.cons_lt_cons_iff.2 (.inr ⟨rfl, countRank_append_lt h h'⟩)

theorem pairwise_afterWords (o : Option UInt32) (s : List Token) :
    (afterWords o s).Pairwise fun x y => x.2.length < y.2.length := by
  cases o with
  | some m => simp [afterWords]
  | none =>
    cases s with
    | nil => simp [afterWords]
    | cons t s =>
      simp only [afterWords]
      split <;> simp

/-- The ways to take the words of a vessel and its number off a sentence. -/
def afterNoun (v : Vessel) (ordinal : Option UInt32) : List Token → List (UInt32 × List Token)
  | a :: b :: rest =>
    if a.lexeme = v.words.1 ∧ b.lexeme = v.words.2 then afterWords ordinal rest else []
  | _ => []

theorem readings_eq (v : Vessel) (s : List Token) :
    v.readings s = (afterThe s).flatMap fun s₁ =>
      (afterOrdinal s₁).flatMap fun x => v.afterNoun x.1 x.2 := by
  unfold readings afterNoun
  rfl

theorem pairwise_afterNoun (v : Vessel) (o : Option UInt32) (s : List Token) :
    (v.afterNoun o s).Pairwise fun x y => x.2.length < y.2.length := by
  unfold afterNoun
  split
  · split
    · exact pairwise_afterWords o _
    · exact .nil
  · exact .nil

/-- A vessel does not begin with any other word. -/
theorem afterNoun_eq_nil {o : Option UInt32} (h : t.lexeme ≠ v.words.1) :
    v.afterNoun o (t :: s) = [] := by
  unfold afterNoun
  split
  · next a b rest heq =>
    cases heq
    exact if_neg fun hwords => h hwords.1
  · rfl

/-- The ways to take a vessel without `the` are those that go on after the
ordinal, if there is one. -/
theorem pairwise_afterOrdinal (v : Vessel) (s : List Token) :
    ((afterOrdinal s).flatMap fun x => v.afterNoun x.1 x.2).Pairwise
      fun x y => x.2.length < y.2.length := by
  rw [List.pairwise_flatMap]
  refine ⟨fun x _ => pairwise_afterNoun v x.1 x.2, ?_⟩
  cases s with
  | nil => simp [afterOrdinal]
  | cons t s =>
    cases ho : ordinal? t.lexeme with
    | none => simp [afterOrdinal, ho]
    | some n =>
      have hnoun : t.lexeme ≠ v.words.1 := fun heq => by simp [heq, v.ordinal?_words] at ho
      simp [afterOrdinal, ho, afterNoun_eq_nil hnoun]

/-- Readings of a vessel that take more come first. -/
theorem pairwise_readings (v : Vessel) (s : List Token) :
    (v.readings s).Pairwise fun x y => x.2.length < y.2.length := by
  rw [readings_eq, List.pairwise_flatMap]
  refine ⟨fun s₁ _ => v.pairwise_afterOrdinal s₁, ?_⟩
  cases s with
  | nil => simp [afterThe]
  | cons t s =>
    by_cases ht : t.lexeme = "the"
    · have hnoun : t.lexeme ≠ v.words.1 := fun heq => v.words_ne_the (heq.symm.trans ht)
      simp [afterThe, afterOrdinal, ht, ordinal?_the, afterNoun_eq_nil hnoun]
    · simp [afterThe, ht]

end Vessel

namespace Element

/-- Fewer words come before more. -/
theorem pairwise_cuts {α : Type} (s : List α) :
    (cuts s).Pairwise fun x y => y.2.length < x.2.length := by
  induction s with
  | nil => exact .nil
  | cons x xs ih =>
    rw [cuts, List.pairwise_cons, List.pairwise_map]
    refine ⟨fun y hy => ?_, ih⟩
    obtain ⟨⟨front, rest⟩, hmem, rfl⟩ := List.mem_map.1 hy
    obtain ⟨hne, rfl⟩ := append_of_mem_cuts hmem
    simpa using List.length_pos_iff.2 hne

section

variable (R : Capture × List Token → Capture × List Token → Prop) (s : List Token)

theorem pairwise_literal (w : Text) : (literal w s).Pairwise R := by
  cases s with
  | nil => exact .nil
  | cons t s =>
    rw [literal]
    split <;> simp

theorem pairwise_oneWord (f : Text → Capture) : (oneWord f s).Pairwise R := by
  cases s with
  | nil => exact .nil
  | cons t s =>
    rw [oneWord]
    split <;> simp

theorem pairwise_oneNumber : (oneNumber s).Pairwise R := by
  cases s with
  | nil => exact .nil
  | cons t s =>
    rw [oneNumber]
    split <;> simp

end

/-- The readings of an element come in the order of their ranks. -/
theorem pairwise_readings (e : Element) (s : List Token) :
    (e.readings s).Pairwise fun x y =>
      ∀ seg seg', s = seg ++ x.2 → s = seg' ++ y.2 → e.rank seg < e.rank seg' := by
  have hwords : (cuts s).Pairwise fun x y =>
      ∀ seg seg', s = seg ++ x.2 → s = seg' ++ y.2 → [seg.length] < [seg'.length] := by
    refine (pairwise_cuts s).imp fun hlt seg seg' h h' => List.cons_lt_cons_iff.2 (.inl ?_)
    have hlength := congrArg List.length (h.symm.trans h')
    rw [List.length_append, List.length_append] at hlength
    omega
  cases e with
  | word w => exact pairwise_literal _ s w
  | verb => exact pairwise_oneWord _ s _
  | verbed => exact pairwise_oneWord _ s _
  | number => exact pairwise_oneNumber _ s
  | ingredient =>
    rw [readings, List.pairwise_map]
    exact hwords
  | recipe =>
    rw [readings, List.pairwise_map]
    exact hwords
  | optional w =>
    rw [readings, List.pairwise_append]
    refine ⟨pairwise_literal _ s w, List.pairwise_singleton _ _, ?_⟩
    intro x hx y hy seg seg' h h'
    obtain ⟨t, rfl, -, -⟩ := mem_literal_iff.1 hx
    rw [List.mem_singleton] at hy
    subst hy
    obtain rfl : seg = [t] := List.append_cancel_right (h.symm.trans (List.singleton_append).symm)
    obtain rfl : seg' = [] := List.append_left_eq_self.1 h'.symm
    change [0] < [1]
    decide
  | vessel v =>
    rw [readings, List.pairwise_map]
    refine (v.pairwise_readings s).imp_of_mem fun {x y} hx hy hlt seg seg' h h' => ?_
    change s = seg ++ x.2 at h
    change s = seg' ++ y.2 at h'
    obtain ⟨seg₁, hseg, hnames⟩ := Vessel.mem_readings_iff.1 hx
    obtain ⟨seg₂, hseg', hnames'⟩ := Vessel.mem_readings_iff.1 hy
    obtain rfl : seg = seg₁ := List.append_cancel_right (h.symm.trans hseg)
    obtain rfl : seg' = seg₂ := List.append_cancel_right (h'.symm.trans hseg')
    have hlength := congrArg List.length (h.symm.trans h')
    rw [List.length_append, List.length_append] at hlength
    obtain ⟨_ | ⟨t, r⟩, rfl⟩ : seg' <+: seg :=
      List.prefix_of_prefix_length_le ⟨_, h'.symm⟩ ⟨_, h.symm⟩ (by omega)
    · rw [List.append_nil] at hlength
      omega
    · exact Vessel.rank_append_lt hnames' hnames

end Element

/-! ## Cuts -/

/-- A segment of a sentence and what an element captures of it. -/
structure Piece where
  segment : List Token
  capture : Capture
deriving DecidableEq

namespace Pattern

/-- Whether a cut gives each element of a pattern a segment that it takes, and
each token of a sentence to an element. -/
structure Divides (p : Pattern) (s : List Token) (cut : List Piece) : Prop where
  sentence : cut.flatMap Piece.segment = s
  taken : List.Forall₂ (fun e piece => e.Takes piece.segment piece.capture) p cut

/-- The ranks of the segments of a cut. -/
def ranks (p : Pattern) (cut : List Piece) : List (List Nat) :=
  List.zipWith (fun e piece => e.rank piece.segment) p cut

/-- Whether a cut ranks before all others. -/
structure First (p : Pattern) (s : List Token) (cut : List Piece) : Prop where
  divides : p.Divides s cut
  before : ∀ cut', p.Divides s cut' → cut' = cut ∨ p.ranks cut < p.ranks cut'

variable {p es : Pattern} {e : Element} {s : List Token} {cut : List Piece}

theorem divides_cons_iff :
    Divides (e :: es) s cut ↔ ∃ piece rest cut', cut = piece :: cut' ∧ s = piece.segment ++ rest ∧
      e.Takes piece.segment piece.capture ∧ es.Divides rest cut' := by
  constructor
  · rintro ⟨rfl, htaken⟩
    obtain ⟨piece, cut', hpiece, hcut', rfl⟩ := List.forall₂_cons_left_iff.1 htaken
    exact ⟨piece, _, cut', rfl, List.flatMap_cons, hpiece, rfl, hcut'⟩
  · rintro ⟨piece, rest, cut', rfl, rfl, hpiece, rfl, hcut'⟩
    exact ⟨List.flatMap_cons, .cons hpiece hcut'⟩

/-- A cut leaves each element a reading. -/
theorem captures?_ne_none_of_divides (h : p.Divides s cut) : p.captures? s ≠ none := by
  suffices hcuts : p.Cuts s (cut.map Piece.capture) from captures?_ne_none_of_cuts hcuts
  induction p generalizing s cut with
  | nil =>
    obtain ⟨rfl, htaken⟩ := h
    obtain rfl := List.forall₂_nil_left_iff.1 htaken
    exact ⟨rfl, rfl⟩
  | cons e es ih =>
    obtain ⟨piece, rest, cut', rfl, rfl, hpiece, hcut'⟩ := divides_cons_iff.1 h
    exact ⟨piece.segment, rest, piece.capture, _, rfl, rfl, hpiece, ih hcut'⟩

/-- The first reading that leaves the other elements a cut, with the first of
those cuts. -/
theorem First.cons {seg rest : List Token} {c : Capture}
    {earlier later : List (Capture × List Token)}
    (hfirst : es.First rest cut) (htakes : e.Takes seg c)
    (hreadings : e.readings (seg ++ rest) = earlier ++ (c, rest) :: later)
    (hnone : ∀ x ∈ earlier, es.captures? x.2 = none) :
    First (e :: es) (seg ++ rest) (⟨seg, c⟩ :: cut) := by
  refine ⟨divides_cons_iff.2 ⟨_, rest, cut, rfl, rfl, htakes, hfirst.divides⟩, ?_⟩
  intro cut' hcut'
  obtain ⟨⟨seg', c'⟩, rest', cut', rfl, hsentence, htakes', hdivides⟩ := divides_cons_iff.1 hcut'
  have hmem : (c', rest') ∈ e.readings (seg ++ rest) :=
    Element.mem_readings_iff.2 ⟨seg', hsentence, htakes'⟩
  rw [hreadings, List.mem_append, List.mem_cons] at hmem
  rcases hmem with hearlier | hsame | hlater
  · exact absurd (hnone _ hearlier) (captures?_ne_none_of_divides hdivides)
  · obtain ⟨rfl, rfl⟩ := Prod.mk.inj hsame
    obtain rfl : seg = seg' := List.append_cancel_right hsentence
    rcases hfirst.before cut' hdivides with rfl | hlt
    · exact .inl rfl
    · exact .inr (List.cons_lt_cons_iff.2 (.inr ⟨rfl, hlt⟩))
  · have hranks := e.pairwise_readings (seg ++ rest)
    rw [hreadings, List.pairwise_append, List.pairwise_cons] at hranks
    have hlt : e.rank seg < e.rank seg' := hranks.2.1.1 _ hlater seg seg' rfl hsentence
    exact .inr (List.cons_lt_cons_iff.2 (.inl hlt))

/-- The search finds the cut that ranks before all others. -/
theorem exists_first_of_captures? {cs : List Capture} (h : p.captures? s = some cs) :
    ∃ cut, p.First s cut ∧ cs = cut.map Piece.capture := by
  induction p generalizing s cs with
  | nil =>
    cases s with
    | cons t s => cases h
    | nil =>
      cases h
      refine ⟨[], ⟨⟨rfl, .nil⟩, fun cut' hcut' => .inl ?_⟩, rfl⟩
      exact List.forall₂_nil_left_iff.1 hcut'.taken
  | cons e es ih =>
    rw [captures?] at h
    obtain ⟨earlier, ⟨c, rest⟩, later, hreadings, hsome, hnone⟩ := List.findSome?_eq_some_iff.1 h
    obtain ⟨cs, hrest, rfl⟩ := Option.map_eq_some_iff.1 hsome
    obtain ⟨cut, hfirst, rfl⟩ := ih hrest
    have hmem : (c, rest) ∈ e.readings s := by
      rw [hreadings]
      exact List.mem_append_right earlier List.mem_cons_self
    obtain ⟨seg, rfl, htakes⟩ := Element.mem_readings_iff.1 hmem
    refine ⟨⟨seg, c⟩ :: cut, hfirst.cons htakes hreadings fun x hx => ?_, rfl⟩
    exact Option.map_eq_none_iff.1 (hnone x hx)

end Pattern

/-! ## Placeholders -/

/-- What a placeholder stands for that no element is there for. -/
def Slot.blank : Slot → Content
  | ingredient | recipe | verb | verbed => .text []
  | number => .number none
  | bowl | dish => .vessel none

/-- What the last of several captures for a placeholder makes it stand for. -/
def Slot.last (slot : Slot) (cs : List Capture) : Content :=
  ((cs.filterMap Capture.entry?).reverse.lookup slot).getD slot.blank

namespace Captures

/-- A placeholder stands for what the last of its elements took. -/
theorem content_ofList (cs : List Capture) (slot : Slot) :
    (ofList cs).content slot = slot.last cs := by
  unfold ofList Slot.last
  induction cs using List.reverseRecOn with
  | nil => cases slot <;> rfl
  | append_singleton cs d ih =>
    rw [List.foldl_concat, content_record, List.filterMap_append, List.reverse_append, ih]
    cases hd : d.entry? with
    | none => simp [hd]
    | some entry =>
      obtain ⟨slot', x⟩ := entry
      by_cases hslot : slot = slot'
      · simp [hd, hslot]
      · simp [hd, hslot, List.lookup_cons, beq_false_of_ne hslot]

end Captures

/-! ## Spelled patterns -/

namespace Pattern

/-- The pieces of a text without an empty one at its end. -/
def trimmed (l : List Text) : List Text := if l.getLast? = some [] then l.dropLast else l

theorem trimmed_cons {x : Text} {l : List Text} (h : l ≠ []) :
    trimmed (x :: l) = x :: trimmed l := by
  unfold trimmed
  rw [List.getLast?_cons_of_ne_nil h, List.dropLast_cons_of_ne_nil h]
  split <;> rfl

/-- The pieces of a pattern are those between its spaces. -/
theorem pieces_eq (t : Text) : pieces t = trimmed (t.splitOn Text.space) := by
  unfold List.splitOn
  induction t with
  | nil => rfl
  | cons b t ih =>
    obtain ⟨x, l, hl⟩ := List.exists_cons_of_ne_nil (List.splitOnP_ne_nil (· == Text.space) t)
    rw [pieces, List.splitOnP_cons_eq_if_modifyHead, ih, hl]
    by_cases hb : b = Text.space
    · rw [if_pos hb, if_pos (beq_iff_eq.2 hb), trimmed_cons (List.cons_ne_nil x l)]
    · rw [if_neg hb, if_neg (mt beq_iff_eq.1 hb), List.modifyHead_cons]
      cases l with
      | nil => cases x <;> rfl
      | cons y l =>
        rw [trimmed_cons (List.cons_ne_nil y l), trimmed_cons (List.cons_ne_nil y l)]

/-- A sentence fits a pattern if and only if it can be cut into segments that the
elements of the pattern take, and what is picked out of it is what the first cut
captures: a placeholder stands for what the last of its elements took, and for
nothing if no element took anything for it.  The elements are spelled between
spaces. -/
theorem match?_ofText (text : Text) (s : List Token) :
    let p : Pattern := (trimmed (text.splitOn Text.space)).map Element.ofText
    (((ofText text).match? s).isSome ↔ ∃ cut, p.Divides s cut) ∧
      ∀ c, (ofText text).match? s = some c → ∃ cut, p.First s cut ∧
        ∀ slot, c.content slot = slot.last (cut.map Piece.capture) := by
  intro p
  have hp : ofText text = p := congrArg (List.map Element.ofText) (pieces_eq text)
  rw [hp, match?_eq, Option.isSome_map]
  refine ⟨⟨fun h => ?_, ?_⟩, fun c hc => ?_⟩
  · obtain ⟨cs, hcs⟩ := Option.isSome_iff_exists.1 h
    obtain ⟨cut, hcut, -⟩ := exists_first_of_captures? hcs
    exact ⟨cut, hcut.divides⟩
  · rintro ⟨cut, hcut⟩
    exact Option.isSome_iff_ne_none.2 (captures?_ne_none_of_divides hcut)
  · obtain ⟨cs, hcs, rfl⟩ := Option.map_eq_some_iff.1 hc
    obtain ⟨cut, hcut, rfl⟩ := exists_first_of_captures? hcs
    exact ⟨cut, hcut, Captures.content_ofList _⟩

-- the first ingredient takes as little as it can, the second is the one noted down
example : ((ofText "<ing> and <ing>").match?
    (["oil", "and", "salt", "and", "pepper"].map Token.ofLexeme)).map Captures.ingredient =
      some "salt and pepper" := by
  decide

end Pattern

end Cookbook
