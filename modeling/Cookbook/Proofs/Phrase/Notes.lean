import Cookbook.Proofs.Phrase.Cuts

/-!
# Cookbook.Proofs.Phrase.Notes

What the search has noted down when it ends.  There is one record for the whole
search, and what a reading that led nowhere has written into it is not taken back:
some placeholders are rubbed out behind it, others are not.

* A try that fails leaves alone what is noted for placeholders other than those
  of the elements it was about (`Pattern.inVain_matchFrom`).
* Each of those is written anew by the reading that leads to the end, whatever
  stood there before (`Captures.foldl_record_congr`).

So the record of a sentence that fits is what the first cut captures, as if no
other reading had been tried (`Pattern.match?_eq`).
-/

namespace Cookbook

/-! ## Placeholders -/

/-- The placeholders that a pattern can have. -/
inductive Slot where
  | ingredient
  | recipe
  | verb
  | verbed
  | number
  | bowl
  | dish
deriving DecidableEq

/-- What a placeholder can stand for. -/
inductive Content where
  | text (t : Text)
  | number (n : Option Int64)
  | vessel (n : Option UInt32)
deriving DecidableEq

/-- What is noted down for a placeholder. -/
def Captures.content (c : Captures) : Slot → Content
  | .ingredient => .text c.ingredient
  | .recipe => .text c.recipe
  | .verb => .text c.verb
  | .verbed => .text c.verbed
  | .number => .number c.number
  | .bowl => .vessel c.bowl
  | .dish => .vessel c.dish

/-- The placeholder that something was captured for, with what it then stands
for. -/
def Capture.entry? : Capture → Option (Slot × Content)
  | nothing => none
  | ingredient words => some (.ingredient, .text (Token.join words))
  | recipe words => some (.recipe, .text (Token.join words))
  | verb word => some (.verb, .text word)
  | verbed word => some (.verbed, .text word)
  | number n => some (.number, .number (some n))
  | vessel .bowl n => some (.bowl, .vessel (some n))
  | vessel .dish n => some (.dish, .vessel (some n))

/-- The placeholder that something was captured for. -/
def Capture.slot? (d : Capture) : Option Slot := d.entry?.map Prod.fst

/-- The placeholder that an element is. -/
def Element.slot? : Element → Option Slot
  | word _ | optional _ => none
  | ingredient => some .ingredient
  | recipe => some .recipe
  | verb => some .verb
  | verbed => some .verbed
  | number => some .number
  | vessel .bowl => some .bowl
  | vessel .dish => some .dish

/-- The placeholders of a pattern. -/
def Pattern.slots (p : Pattern) : List Slot := p.flatMap fun e => e.slot?.toList

/-- What an element takes is captured for the placeholder that it is. -/
theorem Element.Takes.slot?_eq {e : Element} {seg : List Token} {d : Capture}
    (h : e.Takes seg d) : d.slot? = e.slot? := by
  cases e with
  | word w =>
    obtain ⟨_, _, _, rfl⟩ := h
    rfl
  | optional w =>
    obtain ⟨_, rfl⟩ := h
    rfl
  | ingredient =>
    obtain ⟨_, rfl⟩ := h
    rfl
  | recipe =>
    obtain ⟨_, rfl⟩ := h
    rfl
  | verb =>
    obtain ⟨_, _, _, rfl⟩ := h
    rfl
  | verbed =>
    obtain ⟨_, _, _, rfl⟩ := h
    rfl
  | number =>
    obtain ⟨_, _, _, _, rfl⟩ := h
    rfl
  | vessel v =>
    obtain ⟨_, _, rfl⟩ := h
    cases v <;> rfl

/-! ## Records -/

namespace Captures

/-- The notes after all elements, if nothing else is written down. -/
def ofList (captures : List Capture) : Captures := captures.foldl record {}

/-- Whether two records can differ in what stands for these placeholders only. -/
def AgreeOff (slots : List Slot) (c c' : Captures) : Prop :=
  ∀ slot, slot ∉ slots → c.content slot = c'.content slot

variable {c c' c'' : Captures} {slots slots' : List Slot} {d : Capture}

theorem content_record (c : Captures) (d : Capture) (slot : Slot) :
    (c.record d).content slot =
      match d.entry? with
      | some (slot', x) => if slot = slot' then x else c.content slot
      | none => c.content slot := by
  rcases d with _ | _ | _ | _ | _ | _ | ⟨_ | _, _⟩ <;> cases slot <;> rfl

theorem content_rubOut {e : Element} {slot : Slot} (h : slot ∉ e.slot?.toList) :
    (c.rubOut e).content slot = c.content slot := by
  rcases e with _ | _ | _ | _ | _ | _ | _ | ⟨_ | _⟩ <;> cases slot <;>
    first | rfl | simp [Element.slot?] at h

/-- A record is what stands for its placeholders. -/
theorem ext_content (h : ∀ slot, c.content slot = c'.content slot) : c = c' := by
  cases c
  cases c'
  have hi := h .ingredient
  have hr := h .recipe
  have hv := h .verb
  have hd := h .verbed
  have hn := h .number
  have hb := h .bowl
  have hs := h .dish
  simp_all [content]

theorem AgreeOff.refl (slots : List Slot) (c : Captures) : AgreeOff slots c c := fun _ _ => rfl

theorem AgreeOff.trans (h : AgreeOff slots c c') (h' : AgreeOff slots c' c'') :
    AgreeOff slots c c'' :=
  fun slot hslot => (h slot hslot).trans (h' slot hslot)

theorem AgreeOff.mono (h : AgreeOff slots c c') (hsub : slots ⊆ slots') : AgreeOff slots' c c' :=
  fun slot hslot => h slot (mt (@hsub slot) hslot)

theorem agreeOff_record (c : Captures) (d : Capture) : AgreeOff d.slot?.toList (c.record d) c := by
  intro slot hslot
  rw [content_record]
  cases hd : d.entry? with
  | none => rfl
  | some entry =>
    rw [Capture.slot?, hd] at hslot
    exact if_neg fun heq => hslot (by simp [heq])

/-- What is written down is the same in both records afterwards. -/
theorem AgreeOff.record (h : AgreeOff (d.slot?.toList ++ slots) c c') :
    AgreeOff slots (c.record d) (c'.record d) := by
  intro slot hslot
  rw [content_record, content_record]
  cases hd : d.entry? with
  | none => exact h slot (by simp [Capture.slot?, hd, hslot])
  | some entry =>
    by_cases heq : slot = entry.1
    · simp [heq]
    · have hsame : c.content slot = c'.content slot :=
        h slot (by simp [Capture.slot?, hd, hslot, heq])
      simp [heq, hsame]

/-- What stood for a placeholder before does not matter once something is noted
for it. -/
theorem foldl_record_congr (cs : List Capture)
    (h : AgreeOff (cs.flatMap fun d => d.slot?.toList) c c') :
    cs.foldl record c = cs.foldl record c' := by
  induction cs generalizing c c' with
  | nil => exact ext_content fun slot => h slot List.not_mem_nil
  | cons d cs ih => exact ih (AgreeOff.record h)

end Captures

/-! ## The search -/

namespace Pattern

open Captures (AgreeOff)

/-- Whether a try has failed, with nothing changed but what stands for some
placeholders. -/
structure InVain (slots : List Slot) (c : Captures) (tried : Bool × Captures) : Prop where
  fails : tried.1 = false
  agree : AgreeOff slots tried.2 c

variable {p : Pattern} {e : Element} {s : List Token} {cs : List Capture}

/-- Readings that lead nowhere are passed over. -/
theorem tryEach_append {matchRest : List Token → Captures → Bool × Captures} {slots : List Slot}
    {earlier : List (Capture × List Token)} (later : List (Capture × List Token))
    (hslot : ∀ x ∈ earlier, x.1.slot? = e.slot?)
    (hvain : ∀ x ∈ earlier, ∀ c, InVain slots c (matchRest x.2 c)) (c : Captures) :
    ∃ c', AgreeOff (e.slot?.toList ++ slots) c' c ∧
      tryEach matchRest e (earlier ++ later) c = tryEach matchRest e later c' := by
  induction earlier generalizing c with
  | nil => exact ⟨c, .refl _ c, rfl⟩
  | cons x earlier ih =>
    obtain ⟨d, rest⟩ := x
    rw [List.forall_mem_cons] at hslot hvain
    obtain ⟨hfails, hagree⟩ := hvain.1 (c.record d)
    cases htried : matchRest rest (c.record d) with
    | mk fits c₁ =>
      rw [htried] at hfails hagree
      obtain rfl : fits = false := hfails
      obtain ⟨c', hc', heq⟩ := ih hslot.2 hvain.2 c₁
      have hrecord : AgreeOff (e.slot?.toList ++ slots) (c.record d) c :=
        (hslot.1 ▸ Captures.agreeOff_record c d).mono (List.subset_append_left _ _)
      refine ⟨c', hc'.trans ((hagree.mono (List.subset_append_right _ _)).trans hrecord), ?_⟩
      rw [List.cons_append, tryEach, htried]
      exact heq

/-- A reading captures for the placeholder that its element is. -/
theorem slot?_of_mem_readings {x : Capture × List Token} (h : x ∈ e.readings s) :
    x.1.slot? = e.slot? := by
  obtain ⟨seg, -, htakes⟩ := Element.mem_readings_iff.1 h
  exact htakes.slot?_eq

/-- A search that fails has changed nothing but what stands for the placeholders of
its elements. -/
theorem inVain_matchFrom (h : p.captures? s = none) (c : Captures) :
    InVain p.slots c (p.matchFrom s c) := by
  induction p generalizing s c with
  | nil =>
    cases s with
    | nil => cases h
    | cons t s => exact ⟨rfl, .refl _ c⟩
  | cons e es ih =>
    rw [captures?, List.findSome?_eq_none_iff] at h
    obtain ⟨c', hc', heq⟩ := tryEach_append [] (fun x hx => slot?_of_mem_readings hx)
      (fun x hx c => ih (Option.map_eq_none_iff.1 (h x hx)) c) c
    rw [List.append_nil] at heq
    rw [matchFrom, heq]
    refine ⟨rfl, .trans (fun slot hslot => ?_) hc'⟩
    exact Captures.content_rubOut fun hmem => hslot (List.mem_append_left _ hmem)

/-- The captures of a cut are for the placeholders of the pattern. -/
theorem slots_of_cuts (h : p.Cuts s cs) : (cs.flatMap fun d => d.slot?.toList) = p.slots := by
  induction p generalizing s cs with
  | nil =>
    obtain ⟨-, rfl⟩ := h
    rfl
  | cons e es ih =>
    obtain ⟨seg, rest, d, cs', -, rfl, htakes, hcuts⟩ := h
    rw [slots, List.flatMap_cons, List.flatMap_cons, ih hcuts, htakes.slot?_eq]
    rfl

/-- A search that succeeds has noted down the captures of the first cut, whatever
the tries before that one have left. -/
theorem matchFrom_of_captures? (h : p.captures? s = some cs) (c : Captures) :
    p.matchFrom s c = (true, cs.foldl Captures.record c) := by
  induction p generalizing s cs c with
  | nil =>
    cases s with
    | nil =>
      cases h
      rfl
    | cons t s => cases h
  | cons e es ih =>
    have hslots := slots_of_cuts (cuts_of_captures? h)
    rw [captures?] at h
    obtain ⟨earlier, ⟨d, rest⟩, later, hreadings, hsome, hnone⟩ := List.findSome?_eq_some_iff.1 h
    obtain ⟨cs, hrest, rfl⟩ := Option.map_eq_some_iff.1 hsome
    have hmem (x) (hx : x ∈ earlier) : x ∈ e.readings s := by
      rw [hreadings]
      exact List.mem_append_left _ hx
    obtain ⟨c', hc', heq⟩ := tryEach_append ((d, rest) :: later)
      (fun x hx => slot?_of_mem_readings (hmem x hx))
      (fun x hx c => inVain_matchFrom (Option.map_eq_none_iff.1 (hnone x hx)) c) c
    rw [matchFrom, hreadings, heq, tryEach, ih hrest]
    exact congrArg (Prod.mk true) (Captures.foldl_record_congr (d :: cs) (hslots ▸ hc'))

/-- What is picked out of a sentence is what the first cut captures. -/
theorem match?_eq (p : Pattern) (s : List Token) :
    p.match? s = (p.captures? s).map Captures.ofList := by
  unfold match?
  cases h : p.captures? s with
  | none =>
    have hfails : (p.matchFrom s {}).1 = false := (inVain_matchFrom h {}).fails
    split
    · next heq => simp [heq] at hfails
    · rfl
  | some cs =>
    rw [matchFrom_of_captures? h]
    rfl

/-- The search fails exactly if there is no cut. -/
theorem match?_eq_none_iff : p.match? s = none ↔ ∀ cs, ¬ p.Cuts s cs := by
  rw [match?_eq, Option.map_eq_none_iff, captures?_eq_none_iff]

/-- What the search finds comes from a cut. -/
theorem exists_cuts_of_match? {c : Captures} (h : p.match? s = some c) :
    ∃ cs, p.Cuts s cs ∧ c = Captures.ofList cs := by
  rw [match?_eq] at h
  obtain ⟨cs, hcs, rfl⟩ := Option.map_eq_some_iff.1 h
  exact ⟨cs, cuts_of_captures? hcs, rfl⟩

end Pattern

/-! ## Where the tokens stand -/

theorem Captures.ofList_map_bare (cs : List Capture) :
    Captures.ofList (cs.map Capture.bare) = Captures.ofList cs := by
  have hrecord (c : Captures) (d : Capture) : c.record d.bare = c.record d := by
    cases d <;> simp [Capture.bare, record, Token.join_map_bare]
  simp [Captures.ofList, List.foldl_map, hrecord]

/-- What a pattern picks out of a sentence does not depend on its place. -/
theorem Pattern.match?_map_bare (p : Pattern) (s : List Token) :
    p.match? (s.map Token.bare) = p.match? s := by
  rw [match?_eq, match?_eq, captures?_map_bare, Option.map_map]
  congr 1
  funext cs
  exact Captures.ofList_map_bare cs

/-- Nor does the phrase that a sentence is read by. -/
theorem Phrase.find?_map_bare (s : List Token) :
    Phrase.find? (s.map Token.bare) = Phrase.find? s := by
  simp only [find?, Pattern.match?_map_bare]

end Cookbook
