import Cookbook.Proofs.Phrase.Wordings

/-!
# Cookbook.Proofs.Phrase.Spellings

Vessels may be written in many ways: with a number behind them or an ordinal in
front, with or without `the`.  The ways that name the same vessel can stand for one
another in every statement (`spellings_agree`), whatever tokens the statement has
around the vessel.

A sentence with a vessel in it is cut in one way.  If all other elements take a
single token, the vessel is what is left between them (`Pattern.cuts_single_iff`); an
ingredient in front of it ends at the last separator
(`Pattern.cuts_ingredient_word_vessel_iff`).  Tokens need not be what their lexemes
make of them, so a token that looks like a separator may still number a vessel, but
then it ends the name.
-/

namespace Cookbook

/-! ## Ways to write a vessel -/

namespace Vessel

/-- The endings of ordinals. -/
def endings : List Text := ["st", "nd", "rd", "th"]

/-- The ways to write a vessel with its number. -/
def numbered (v : Vessel) (n : UInt32) : List (List Text) :=
  let number := Decimal.ofNat n.toNat
  [v.words.1, v.words.2, number] ::
    endings.map fun ending => [number ++ ending, v.words.1, v.words.2]

/-- The ways to write a vessel; the first one needs no number. -/
def spellings (v : Vessel) (n : UInt32) : List (List Text) :=
  let bare := if n = 1 then [v.words.1, v.words.2] :: v.numbered n else v.numbered n
  bare ++ bare.map (Text.ofString "the" :: ·)

variable {v : Vessel} {n : UInt32}

theorem ordinal?_append {ending : Text} (hn : n ≠ 0) (h : ending ∈ endings) :
    ordinal? (Decimal.ofNat n.toNat ++ ending) = some n := by
  have hlength : ending.length = 2 ∧
      (ending = "st" ∨ ending = "nd" ∨ ending = "rd" ∨ ending = "th") := by
    simp only [endings, List.mem_cons, List.not_mem_nil, or_false] at h
    refine ⟨?_, h⟩
    rcases h with rfl | rfl | rfl | rfl <;> rfl
  have hcut : (Decimal.ofNat n.toNat ++ ending).length - 2 = (Decimal.ofNat n.toNat).length := by
    rw [List.length_append, hlength.1, Nat.add_sub_cancel]
  have hpos : 1 ≤ n.toNat := by
    have hne : n.toNat ≠ 0 := fun h0 => hn (by rw [← UInt32.toNat_inj]; exact h0)
    omega
  have hsize := n.toNat_lt_size
  simp only [ordinal?, hcut, List.take_left, List.drop_left, if_pos hlength.2, Decimal.nat?_ofNat,
    Option.bind_some]
  rw [Cookbook.vesselNumber?, if_pos (by omega), Int.toNat_natCast, UInt32.ofNat_toNat]

/-- All ways to write a vessel name it. -/
theorem names_of_mem_spellings {B : List Text} (hn : n ≠ 0) (h : B ∈ v.spellings n) :
    v.Names (B.map Token.ofLexeme) n := by
  have hnumbered (B : List Text) (h : B ∈ v.numbered n) : v.Counts (B.map Token.ofLexeme) n := by
    rw [numbered, List.mem_cons, List.mem_map] at h
    rcases h with rfl | ⟨ending, hending, rfl⟩
    · exact ⟨_, _, rfl, rfl, .inr (.inr ⟨_, rfl, vesselNumber?_ofNat hn⟩)⟩
    · exact ⟨_, _, rfl, rfl, .inr (.inl ⟨_, rfl, ordinal?_append hn hending⟩)⟩
  have hbare (B : List Text)
      (h : B ∈ if n = 1 then [v.words.1, v.words.2] :: v.numbered n else v.numbered n) :
      v.Counts (B.map Token.ofLexeme) n := by
    split at h
    · next h1 =>
      rcases List.mem_cons.1 h with rfl | h
      · exact ⟨_, _, rfl, rfl, .inl ⟨rfl, h1⟩⟩
      · exact hnumbered B h
    · exact hnumbered B h
  rw [spellings, List.mem_append, List.mem_map] at h
  rcases h with h | ⟨B, h, rfl⟩
  · exact .inl (hbare B h)
  · exact .inr ⟨_, _, rfl, rfl, hbare B h⟩

/-- Only the last token of a name can look like a word that no name holds. -/
theorem Names.not_isOutside_of_mem_dropLast {s : List Token} {t : Token} (h : v.Names s n)
    (ht : t ∈ s.dropLast) : ¬ v.IsOutside t.lexeme := by
  rintro ⟨hthe, hnoun, hkind, hord, -⟩
  have hcount (s : List Token) (h : v.Counts s n) (ht : t ∈ s.dropLast) : False := by
    obtain ⟨a, b, ha, hb, ⟨rfl, -⟩ | ⟨o, rfl, ho⟩ | ⟨c, rfl, -⟩⟩ := h <;>
      simp only [List.dropLast_cons_cons, List.dropLast_singleton, List.mem_cons, List.not_mem_nil,
        or_false] at ht <;> grind
  rcases h with h | ⟨u, s', rfl, hu, h⟩
  · exact hcount s h ht
  · have hne : s' ≠ [] := by
      rintro rfl
      obtain ⟨_, _, _, _, ⟨h, -⟩ | ⟨_, h, -⟩ | ⟨_, h, -⟩⟩ := h <;> cases h
    rw [List.dropLast_cons_of_ne_nil hne] at ht
    rcases List.mem_cons.1 ht with rfl | ht
    · exact hthe hu
    · exact hcount s' h ht

/-- Whether a name is written with tokens that are all part of names. -/
def IsPlain (v : Vessel) (s : List Token) : Prop := ∀ t ∈ s, ¬ v.IsOutside t.lexeme

theorem Names.isPlain {B : List Text} (h : v.Names (B.map Token.ofLexeme) n) :
    v.IsPlain (B.map Token.ofLexeme) :=
  List.forall_mem_map.2 fun _ hw => h.not_isOutside hw

end Vessel

/-! ## Where a sentence is cut -/

section

variable {α : Type} {P : α → Prop} {X Y bs cs : List α} {u v : α}

theorem mem_dropLast_append_cons (hbs : bs ≠ []) : u ∈ (X ++ u :: bs).dropLast := by
  rw [List.dropLast_append_of_ne_nil (List.cons_ne_nil u bs), List.dropLast_cons_of_ne_nil hbs]
  simp

/-- A list is split in one way at an element with a property, if behind the one
split no element has it, and behind the other none but the last. -/
theorem append_cons_inj_of_dropLast (h : X ++ u :: bs = Y ++ v :: cs) (hu : P u) (hv : P v)
    (hne : bs ≠ []) (hb : ∀ t ∈ bs, ¬ P t) (hc : ∀ t ∈ cs.dropLast, ¬ P t) :
    X = Y ∧ bs = cs := by
  rcases List.append_eq_append_iff.1 h with ⟨Z, rfl, hZ⟩ | ⟨Z, rfl, hZ⟩
  · cases Z with
    | nil => simpa using (List.cons.inj hZ).2
    | cons z Z => exact absurd hv (hb v (by simp [(List.cons.inj hZ).2]))
  · cases Z with
    | nil => simpa using (List.cons.inj hZ).2.symm
    | cons z Z =>
      rw [(List.cons.inj hZ).2] at hc
      exact absurd hu (hc u (mem_dropLast_append_cons hne))

/-- A list is split in one way at an element with a property, if in front of it none
but the last have it, and the one behind it has not. -/
theorem append_cons_inj_of_head (h : X ++ u :: bs = Y ++ v :: cs) (hu : P u) (hv : P v)
    (hX : ∀ t ∈ X.dropLast, ¬ P t) (hY : ∀ t ∈ Y.dropLast, ¬ P t)
    (hb : ∀ t, bs.head? = some t → ¬ P t) (hc : ∀ t, cs.head? = some t → ¬ P t) :
    X = Y ∧ bs = cs := by
  have hfront {X Z bs cs : List α} {u v : α} (hbs : bs = Z ++ v :: cs) (hu : P u) (hv : P v)
      (hb : ∀ t, bs.head? = some t → ¬ P t) (hX : ∀ t ∈ (X ++ u :: Z).dropLast, ¬ P t) : False := by
    cases Z with
    | nil => exact hb v (by rw [hbs]; rfl) hv
    | cons z Z => exact hX u (mem_dropLast_append_cons (List.cons_ne_nil z Z)) hu
  rcases List.append_eq_append_iff.1 h with ⟨Z, rfl, hZ⟩ | ⟨Z, rfl, hZ⟩
  · cases Z with
    | nil => simpa using (List.cons.inj hZ).2
    | cons z Z =>
      obtain ⟨rfl, hbs⟩ := List.cons.inj hZ
      exact (hfront hbs hu hv hb hY).elim
  · cases Z with
    | nil => simpa using (List.cons.inj hZ).2.symm
    | cons z Z =>
      obtain ⟨rfl, hcs⟩ := List.cons.inj hZ
      exact (hfront hcs hv hu hc hX).elim

end

/-- Whether an element takes one token, whatever it is. -/
def Element.isSingle : Element → Bool
  | word _ | verb | verbed | number => true
  | optional _ | ingredient | recipe | vessel _ => false

namespace Element

variable {e : Element} {s : List Token} {c c' : Capture}

theorem Takes.length_eq (he : e.isSingle) (h : e.Takes s c) : s.length = 1 := by
  cases e with
  | word w => obtain ⟨t, rfl, -⟩ := h; rfl
  | verb => obtain ⟨t, rfl, -⟩ := h; rfl
  | verbed => obtain ⟨t, rfl, -⟩ := h; rfl
  | number => obtain ⟨t, _, rfl, -⟩ := h; rfl
  | _ => cases he

/-- An element that takes a segment captures one thing of it. -/
theorem Takes.unique (h : e.Takes s c) (h' : e.Takes s c') : c = c' := by
  cases e with
  | vessel v =>
    obtain ⟨n, hn, rfl⟩ := h
    obtain ⟨n', hn', rfl⟩ := h'
    rw [hn.unique hn']
  | _ => grind [Takes]

theorem Takes.ne_vessel {v : Vessel} {n : UInt32} (he : e.isSingle) (h : e.Takes s c) :
    c ≠ .vessel v n := by
  cases e with
  | word w => obtain ⟨_, -, -, rfl⟩ := h; simp
  | verb => obtain ⟨_, -, -, rfl⟩ := h; simp
  | verbed => obtain ⟨_, -, -, rfl⟩ := h; simp
  | number => obtain ⟨_, _, -, -, rfl⟩ := h; simp
  | _ => cases he

end Element

namespace Pattern

section

variable {es fs : Pattern} {s ts us B : List Token} {cs ds : List Capture} {v : Vessel}
  {n : UInt32} {w : Text}

theorem cuts_append_iff : Cuts (es ++ fs) s cs ↔
    ∃ s₁ s₂ cs₁ cs₂, s = s₁ ++ s₂ ∧ cs = cs₁ ++ cs₂ ∧ Cuts es s₁ cs₁ ∧ Cuts fs s₂ cs₂ := by
  induction es generalizing s cs with
  | nil =>
    constructor
    · exact fun h => ⟨[], s, [], cs, rfl, rfl, ⟨rfl, rfl⟩, h⟩
    · rintro ⟨_, _, _, _, rfl, rfl, ⟨rfl, rfl⟩, h⟩
      exact h
  | cons e es ih =>
    simp only [List.cons_append, Cuts, ih]
    constructor
    · rintro ⟨seg, _, c, _, rfl, rfl, hc, s₁, s₂, cs₁, cs₂, rfl, rfl, h₁, h₂⟩
      exact ⟨seg ++ s₁, s₂, c :: cs₁, cs₂, (List.append_assoc ..).symm, rfl,
        ⟨seg, s₁, c, cs₁, rfl, rfl, hc, h₁⟩, h₂⟩
    · rintro ⟨_, s₂, _, cs₂, rfl, rfl, ⟨seg, s₁, c, cs₁, rfl, rfl, hc, h₁⟩, h₂⟩
      exact ⟨seg, s₁ ++ s₂, c, cs₁ ++ cs₂, List.append_assoc .., rfl, hc, s₁, s₂, cs₁, cs₂, rfl,
        rfl, h₁, h₂⟩

theorem cuts_nil_iff : Cuts [] s cs ↔ s = [] ∧ cs = [] := Iff.rfl

theorem cuts_word_iff : Cuts (.word w :: es) s cs ↔
    ∃ t rest cs', s = t :: rest ∧ t.lexeme = w ∧ cs = .nothing :: cs' ∧ Cuts es rest cs' := by
  simp only [Cuts, Element.Takes]
  grind

theorem cuts_ingredient_iff : Cuts (.ingredient :: es) s cs ↔
    ∃ X rest cs', s = X ++ rest ∧ X ≠ [] ∧ cs = .ingredient X :: cs' ∧ Cuts es rest cs' := by
  simp only [Cuts, Element.Takes]
  grind

theorem cuts_vessel_iff : Cuts (.vessel v :: es) s cs ↔
    ∃ B rest n cs', s = B ++ rest ∧ v.Names B n ∧ cs = .vessel v n :: cs' ∧ Cuts es rest cs' := by
  simp only [Cuts, Element.Takes]
  grind

theorem cuts_vessel_last_iff : Cuts [.vessel v] s cs ↔ ∃ n, v.Names s n ∧ cs = [.vessel v n] := by
  simp only [cuts_vessel_iff, cuts_nil_iff]
  constructor
  · rintro ⟨B, _, n, _, rfl, hB, rfl, rfl, rfl⟩
    exact ⟨n, by rwa [List.append_nil], rfl⟩
  · rintro ⟨n, hs, rfl⟩
    exact ⟨s, [], n, [], by rw [List.append_nil], hs, rfl, rfl, rfl⟩

theorem Cuts.length_eq (hes : ∀ e ∈ es, e.isSingle) (h : Cuts es s cs) :
    s.length = es.length := by
  induction es generalizing s cs with
  | nil =>
    obtain ⟨rfl, -⟩ := h
    rfl
  | cons e es ih =>
    obtain ⟨seg, rest, c, cs', rfl, -, hc, h⟩ := h
    rw [List.forall_mem_cons] at hes
    rw [List.length_append, hc.length_eq hes.1, ih hes.2 h, List.length_cons, Nat.add_comm]

theorem Cuts.unique_of_single (hes : ∀ e ∈ es, e.isSingle) (h : Cuts es s cs)
    (h' : Cuts es s ds) : cs = ds := by
  induction es generalizing s cs ds with
  | nil => rw [h.2, h'.2]
  | cons e es ih =>
    obtain ⟨seg, rest, c, cs', rfl, rfl, hc, h⟩ := h
    obtain ⟨seg', rest', c', ds', hs, rfl, hc', h'⟩ := h'
    rw [List.forall_mem_cons] at hes
    obtain ⟨rfl, rfl⟩ := List.append_inj hs ((hc.length_eq hes.1).trans (hc'.length_eq hes.1).symm)
    rw [hc.unique hc', ih hes.2 h h']

theorem Cuts.not_mem_vessel (hes : ∀ e ∈ es, e.isSingle) (h : Cuts es s cs) :
    .vessel v n ∉ cs := by
  induction es generalizing s cs with
  | nil => simp [h.2]
  | cons e es ih =>
    obtain ⟨_, _, c, cs', -, rfl, hc, h⟩ := h
    rw [List.forall_mem_cons] at hes
    rw [List.mem_cons, not_or]
    exact ⟨(hc.ne_vessel hes.1).symm, ih hes.2 h⟩

/-- Elements that take one token each take what is in front of the rest. -/
theorem cuts_single_append_iff (hes : ∀ e ∈ es, e.isSingle) (hts : Cuts es ts ds) :
    Cuts (es ++ fs) (ts ++ s) cs ↔ ∃ cs', cs = ds ++ cs' ∧ Cuts fs s cs' := by
  rw [cuts_append_iff]
  constructor
  · rintro ⟨ts', _, _, cs', hs, rfl, hts', h⟩
    obtain ⟨rfl, rfl⟩ := List.append_inj hs ((hts.length_eq hes).trans (hts'.length_eq hes).symm)
    exact ⟨cs', by rw [hts'.unique_of_single hes hts], h⟩
  · rintro ⟨cs', rfl, h⟩
    exact ⟨ts, s, ds, cs', rfl, rfl, hts, h⟩

/-- Between elements that take one token each, a vessel is what is left. -/
theorem cuts_single_iff (hes : ∀ e ∈ es, e.isSingle) (hfs : ∀ e ∈ fs, e.isSingle)
    {cs₁ cs₂ : List Capture} (hts : Cuts es ts cs₁) (hus : Cuts fs us cs₂) (hB : v.Names B n) :
    Cuts (es ++ .vessel v :: fs) (ts ++ (B ++ us)) cs ↔ cs = cs₁ ++ .vessel v n :: cs₂ := by
  rw [cuts_single_append_iff hes hts]
  simp only [cuts_vessel_iff]
  constructor
  · rintro ⟨_, rfl, B', us', n', cs₂', hs, hB', rfl, hus'⟩
    obtain ⟨rfl, rfl⟩ := List.append_inj' hs ((hus.length_eq hfs).trans (hus'.length_eq hfs).symm)
    rw [hB'.unique hB, hus'.unique_of_single hfs hus]
  · rintro rfl
    exact ⟨_, rfl, B, us, n, cs₂, rfl, hB, rfl, hus⟩

/-- A separator in front of a plain name shows where an ingredient ends. -/
theorem cuts_ingredient_word_vessel_iff {X : List Token} {u : Token} (hX : X ≠ [])
    (hu : u.lexeme = w) (hw : v.IsOutside w) (hB : v.Names B n) (hplain : v.IsPlain B) :
    Cuts [.ingredient, .word w, .vessel v] (X ++ u :: B) cs ↔
      cs = [.ingredient X, .nothing, .vessel v n] := by
  simp only [cuts_ingredient_iff, cuts_word_iff, cuts_vessel_last_iff]
  constructor
  · rintro ⟨X', _, _, hs, -, rfl, u', B', _, rfl, hu', rfl, n', hB', rfl⟩
    obtain ⟨_, _, _, hcons⟩ := hB.exists_cons
    obtain ⟨rfl, rfl⟩ := append_cons_inj_of_dropLast (P := fun t : Token => v.IsOutside t.lexeme) hs
      (by rwa [hu]) (by rwa [hu']) (by simp [hcons]) hplain
      fun t ht => hB'.not_isOutside_of_mem_dropLast ht
    rw [hB'.unique hB]
  · rintro rfl
    exact ⟨X, _, _, rfl, hX, rfl, u, B, _, rfl, hu, rfl, n, hB, rfl⟩

/-- A bowl ends at the separator, and a dish begins behind it. -/
theorem cuts_vessel_word_vessel_iff {v' : Vessel} {A : List Token} {m : UInt32} {u : Token}
    (hA : v.Names A m) (hu : u.lexeme = w) (hw : v.IsOutside w) (hw' : v'.IsOutside w)
    (hB : v'.Names B n) :
    Cuts [.vessel v, .word w, .vessel v'] (A ++ u :: B) cs ↔
      cs = [.vessel v m, .nothing, .vessel v' n] := by
  have hfront {A : List Token} {m : UInt32} (hA : v.Names A m) :
      ∀ t ∈ A.dropLast, t.lexeme ≠ w := by
    rintro t ht rfl
    exact hA.not_isOutside_of_mem_dropLast ht hw
  have hback {B : List Token} {n : UInt32} (hB : v'.Names B n) :
      ∀ t, B.head? = some t → t.lexeme ≠ w := by
    obtain ⟨t, u, s, rfl⟩ := hB.exists_cons
    rintro _ ⟨⟩ rfl
    exact hB.not_isOutside_of_mem_dropLast List.mem_cons_self hw'
  rw [cuts_vessel_iff]
  simp only [cuts_word_iff, cuts_vessel_last_iff]
  constructor
  · rintro ⟨A', _, m', _, hs, hA', rfl, u', B', _, rfl, hu', rfl, n', hB', rfl⟩
    obtain ⟨rfl, rfl⟩ := append_cons_inj_of_head (P := fun t => t.lexeme = w) hs hu hu'
      (hfront hA) (hfront hA') (hback hB) (hback hB')
    rw [hA'.unique hA, hB'.unique hB]
  · rintro rfl
    exact ⟨A, _, m, _, rfl, hA, rfl, u, B, _, rfl, hu, rfl, n, hB, rfl⟩

theorem lexeme_getLast?_of_cuts (h : Cuts (es ++ [.word w]) s cs) :
    s.getLast?.map Token.lexeme = some w := by
  obtain ⟨s₁, _, _, _, rfl, -, -, hlast⟩ := cuts_append_iff.1 h
  obtain ⟨t, _, _, rfl, rfl, -, hnil⟩ := cuts_word_iff.1 hlast
  obtain ⟨rfl, -⟩ := cuts_nil_iff.1 hnil
  rw [List.getLast?_concat, Option.map_some]

/-- A plain name does not end with a word that no name holds. -/
theorem not_cuts_of_isPlain (hw : v.IsOutside w) (hB : v.Names B n) (hplain : v.IsPlain B) :
    ¬ Cuts (es ++ [.word w]) (ts ++ B) cs := by
  intro h
  obtain ⟨_, _, _, hcons⟩ := hB.exists_cons
  have hlast := lexeme_getLast?_of_cuts h
  rw [List.getLast?_append_of_ne_nil _ (by simp [hcons]), Option.map_eq_some_iff] at hlast
  obtain ⟨t, ht, rfl⟩ := hlast
  exact hplain t (List.mem_of_getLast? ht) hw

end

end Pattern

/-! ## Phrases with a vessel -/

namespace Vessel

/-- The number that was picked out for a vessel. -/
def captured : Vessel → Captures → Option UInt32
  | bowl, c => c.bowl
  | dish, c => c.dish

/-- The number of the vessel that an instruction is for. -/
def numberIn : Vessel → Instruction → UInt32
  | bowl, i => i.bowl
  | dish, i => i.dish

variable {v : Vessel} {n : UInt32} {p : Phrase} {c : Captures} {cs ds : List Capture}

theorem captured_foldl (h : ∀ n, .vessel v n ∉ ds) (c : Captures) :
    v.captured (ds.foldl Captures.record c) = v.captured c := by
  induction ds generalizing c with
  | nil => rfl
  | cons d ds ih =>
    simp only [List.mem_cons, not_or] at h
    rw [List.foldl_cons, ih fun n => (h n).2]
    have hd (n : UInt32) : d ≠ .vessel v n := Ne.symm (h n).1
    rcases d with _ | _ | _ | _ | _ | _ | ⟨_ | _, m⟩ <;> cases v <;>
      first | rfl | exact absurd rfl (hd m)

/-- What is picked out for a vessel is what its last element took. -/
theorem captured_ofList (h : ∀ m, .vessel v m ∉ ds) :
    v.captured (Captures.ofList (cs ++ .vessel v n :: ds)) = some n := by
  rw [Captures.ofList, List.foldl_append, List.foldl_cons, captured_foldl h]
  cases v <;> rfl

theorem numberIn_instruction (h : v.captured c = some n) (place : Location) :
    v.numberIn (p.instruction c place) = n := by
  cases v with
  | bowl => exact congrArg (fun o : Option UInt32 => o.getD 1) h
  | dish => exact congrArg (fun o : Option UInt32 => o.getD 1) h

/-- Whether the plain names of a vessel are read alike between some tokens: by one
phrase, which picks out the number of the vessel and otherwise always the same. -/
def ReadAlike (v : Vessel) (ts us : List Token) : Prop :=
  ∃ (p : Phrase) (c : UInt32 → Captures), (∀ n, v.captured (c n) = some n) ∧
    ∀ B n, v.Names B n → v.IsPlain B → Phrase.find? (ts ++ (B ++ us)) = some (p, c n)

end Vessel

namespace Phrase

open Pattern

variable {v : Vessel} {n : UInt32} {ts us : List Token} {es fs : Pattern} {cs ds : List Capture}
  {p : Phrase} {Q : List Phrase} {o w : Text}

/-- Names are read alike if the sentence is cut in one way, and taken by no earlier
phrase. -/
theorem readAlike_of_cuts {D : UInt32 → List Capture} (hp : p ∈ all)
    (hopen : p.pattern = .word o :: es) (hQ : p.before.filter (mayOpen o) = Q)
    (hD : ∀ n, v.captured (Captures.ofList (D n)) = some n)
    (hbefore : ∀ B n, v.Names B n → v.IsPlain B →
      ∀ q ∈ Q, ∀ cs, ¬ q.pattern.Cuts (ts ++ (B ++ us)) cs)
    (hcuts : ∀ B n, v.Names B n → v.IsPlain B →
      ∀ cs, p.pattern.Cuts (ts ++ (B ++ us)) cs ↔ cs = D n) : v.ReadAlike ts us := by
  refine ⟨p, fun n => Captures.ofList (D n), hD, fun B n hB hplain => ?_⟩
  have hbefore := hbefore B n hB hplain
  have hcuts := hcuts B n hB hplain
  have hcut := (hcuts (D n)).2 rfl
  rw [hopen, cuts_word_iff] at hcut
  obtain ⟨t, rest, _, hs, rfl, -⟩ := hcut
  rw [hs] at hbefore hcuts ⊢
  refine find?_eq_of_mem hp hQ hbefore ?_
  rw [match?_eq, captures?_eq_of_iff hcuts]
  rfl

/-- Names are read alike where all other elements take one token. -/
theorem readAlike_of_single (hp : p ∈ all) (hopen : ∃ es, p.pattern = .word o :: es)
    (hQ : p.before.filter (mayOpen o) = Q)
    (hsingle : (p.pattern.filter fun e => !e.isSingle).length = 1)
    (hpattern : p.pattern = es ++ .vessel v :: fs) (hts : es.Cuts ts cs) (hus : fs.Cuts us ds)
    (hbefore : ∀ B n, v.Names B n → v.IsPlain B →
      ∀ q ∈ Q, ∀ cs, ¬ q.pattern.Cuts (ts ++ (B ++ us)) cs) : v.ReadAlike ts us := by
  obtain ⟨_, hopen⟩ := hopen
  rw [hpattern, List.filter_append, List.filter_cons_of_pos (by rfl), List.length_append,
    List.length_cons] at hsingle
  have hnone (l : Pattern) (h : (l.filter fun e => !e.isSingle).length = 0) :
      ∀ e ∈ l, e.isSingle := by
    rw [List.length_eq_zero_iff, List.filter_eq_nil_iff] at h
    simpa using h
  have hes := hnone es (by omega)
  have hfs := hnone fs (by omega)
  refine readAlike_of_cuts (D := fun n => cs ++ .vessel v n :: ds) hp hopen hQ
    (fun n => Vessel.captured_ofList fun m => hus.not_mem_vessel hfs) hbefore
    fun B n hB _ => ?_
  rw [hpattern]
  exact fun _ => cuts_single_iff hes hfs hts hus hB

/-- Names are read alike behind an ingredient. -/
theorem readAlike_of_working {t u : Token} {X : List Token} (hp : p ∈ all)
    (hpattern : p.pattern = [.word o, .ingredient, .word w, .vessel v])
    (hQ : p.before.filter (mayOpen o) = Q) (ht : t.lexeme = o) (hX : X ≠ [])
    (hu : u.lexeme = w) (hw : v.IsOutside w)
    (hbefore : ∀ B n, v.Names B n → v.IsPlain B →
      ∀ q ∈ Q, ∀ cs, ¬ q.pattern.Cuts (t :: (X ++ u :: B)) cs) :
    v.ReadAlike (t :: (X ++ [u])) [] := by
  have hsentence (B : List Token) : t :: (X ++ [u]) ++ (B ++ []) = t :: (X ++ u :: B) := by simp
  refine readAlike_of_cuts (D := fun n => [.nothing, .ingredient X, .nothing] ++ [.vessel v n])
    hp hpattern hQ (fun n => Vessel.captured_ofList (by simp)) (fun B n hB hplain => ?_)
    fun B n hB hplain cs => ?_
  · rw [hsentence]
    exact hbefore B n hB hplain
  · rw [hsentence, hpattern, cuts_word_iff]
    simp only [List.cons.injEq]
    constructor
    · rintro ⟨_, _, cs', ⟨rfl, rfl⟩, -, rfl, h⟩
      rw [(cuts_ingredient_word_vessel_iff hX hu hw hB hplain).1 h]
      rfl
    · rintro rfl
      exact ⟨t, _, _, ⟨rfl, rfl⟩, ht, rfl,
        (cuts_ingredient_word_vessel_iff hX hu hw hB hplain).2 rfl⟩

/-- What stands around the vessel behind an ingredient. -/
theorem exists_of_working {v' : Vessel}
    (h : [.word o, .ingredient, .word w, .vessel v'] = es ++ .vessel v :: fs)
    (hts : es.Cuts ts cs) (hus : fs.Cuts us ds) :
    v = v' ∧ us = [] ∧
      ∃ t X u, ts = t :: (X ++ [u]) ∧ t.lexeme = o ∧ X ≠ [] ∧ u.lexeme = w := by
  obtain ⟨rfl, rfl, rfl⟩ : es = [.word o, .ingredient, .word w] ∧ v = v' ∧ fs = [] := by
    rcases es with _ | ⟨_, _ | ⟨_, _ | ⟨_, _ | ⟨_, es⟩⟩⟩⟩ <;> simp_all
  simp only [cuts_word_iff, cuts_ingredient_iff, cuts_nil_iff] at hts hus
  obtain ⟨t, _, _, rfl, rfl, -, X, _, _, rfl, hX, -, u, _, _, rfl, rfl, -, rfl, -⟩ := hts
  exact ⟨rfl, hus.1, t, X, u, rfl, rfl, hX, rfl⟩

/-- The phrases with a vessel whose other elements take one token, and that are the
first with their first word. -/
def singles : List Phrase :=
  [addDryTo, liquefyContents, liquifyContents, stirMinute, mixBowl, clean]

/-- The phrases with an ingredient in front of a bowl that are the first with their
first word. -/
def workings : List Phrase := [put, fold, removeFrom, combineInto, divideInto]

/-- The phrases with a vessel. -/
theorem mem_of_vessel_mem (hp : p ∈ all) (hv : .vessel v ∈ p.pattern) :
    p ∈ singles ∨ p ∈ workings ∨ p = stirMinutes ∨ p = stirInto ∨ p = addTo ∨ p = pour := by
  have htable : ∀ p ∈ all, Element.vessel .bowl ∈ p.pattern ∨ Element.vessel .dish ∈ p.pattern →
      p ∈ singles ∨ p ∈ workings ∨ p = stirMinutes ∨ p = stirInto ∨ p = addTo ∨ p = pour := by
    decide
  cases v with
  | bowl => exact htable p hp (.inl hv)
  | dish => exact htable p hp (.inr hv)

theorem readAlike_of_mem_singles (hp : p ∈ singles)
    (hpattern : p.pattern = es ++ .vessel v :: fs) (hts : es.Cuts ts cs) (hus : fs.Cuts us ds) :
    v.ReadAlike ts us := by
  have htable : p ∈ all ∧ ∃ o, (∃ es, p.pattern = .word o :: es) ∧
      p.before.filter (mayOpen o) = [] ∧ (p.pattern.filter fun e => !e.isSingle).length = 1 := by
    simp only [singles, List.mem_cons, List.not_mem_nil, or_false] at hp
    rcases hp with rfl | rfl | rfl | rfl | rfl | rfl <;>
      exact ⟨by decide, _, ⟨_, rfl⟩, rfl, rfl⟩
  obtain ⟨hall, o, hopen, hQ, hsingle⟩ := htable
  exact readAlike_of_single hall hopen hQ hsingle hpattern hts hus (by simp)

/-- Stirring for more than a minute is not stirring for a minute. -/
theorem readAlike_stirMinutes (hpattern : stirMinutes.pattern = es ++ .vessel v :: fs)
    (hts : es.Cuts ts cs) (hus : fs.Cuts us ds) : v.ReadAlike ts us := by
  refine readAlike_of_single (p := stirMinutes) (by decide) ⟨_, rfl⟩ (Q := [_]) rfl rfl hpattern
    hts hus
    fun B n hB hplain q hq cs' hcut => ?_
  obtain rfl := List.mem_singleton.1 hq
  have hminutes : Cuts ([.word "Stir", bowl, .word "for", .number] ++ [.word "minutes"])
      (ts ++ (B ++ us)) (cs ++ .vessel v n :: ds) :=
    (congrArg (fun es => Cuts es _ _) hpattern).mpr (cuts_append_iff.2
      ⟨ts, _, cs, _, rfl, rfl, hts, cuts_vessel_iff.2 ⟨B, us, n, ds, rfl, hB, rfl, hus⟩⟩)
  have hminute : Cuts ([.word "Stir", bowl, .word "for", .number] ++ [.word "minute"])
      (ts ++ (B ++ us)) cs' := hcut
  have hlast := (lexeme_getLast?_of_cuts hminutes).symm.trans (lexeme_getLast?_of_cuts hminute)
  exact absurd hlast (by decide)

theorem readAlike_of_mem_workings (hp : p ∈ workings)
    (hpattern : p.pattern = es ++ .vessel v :: fs) (hts : es.Cuts ts cs) (hus : fs.Cuts us ds) :
    v.ReadAlike ts us := by
  have htable : p ∈ all ∧ ∃ o w, p.pattern = [.word o, .ingredient, .word w, bowl] ∧
      Vessel.bowl.IsOutside w ∧ p.before.filter (mayOpen o) = [] := by
    simp only [workings, List.mem_cons, List.not_mem_nil, or_false] at hp
    rcases hp with rfl | rfl | rfl | rfl | rfl <;> exact ⟨by decide, _, _, rfl, by decide, rfl⟩
  obtain ⟨hall, o, w, hworking, hw, hQ⟩ := htable
  obtain ⟨rfl, rfl, t, X, u, rfl, ht, hX, hu⟩ :=
    exists_of_working (hworking.symm.trans hpattern) hts hus
  exact readAlike_of_working hall hworking hQ ht hX hu hw (by simp)

/-- Stirring an ingredient into a bowl takes no time. -/
theorem readAlike_stirInto (hpattern : stirInto.pattern = es ++ .vessel v :: fs)
    (hts : es.Cuts ts cs) (hus : fs.Cuts us ds) : v.ReadAlike ts us := by
  obtain ⟨rfl, rfl, t, X, u, rfl, ht, hX, hu⟩ := exists_of_working hpattern hts hus
  refine readAlike_of_working (p := stirInto) (by decide) rfl rfl ht hX hu (by decide)
    fun B n hB hplain q hq cs => ?_
  have htimes : ∃ es w, q.pattern = es ++ [.word w] ∧ Vessel.bowl.IsOutside w := by
    have hrivals : stirInto.before.filter (mayOpen "Stir") =
        [stirMinute, stirMinutes, stirForMinute, stirForMinutes] := rfl
    simp only [hrivals, List.mem_cons, List.not_mem_nil, or_false] at hq
    rcases hq with rfl | rfl | rfl | rfl
    · exact ⟨[.word "Stir", bowl, .word "for", .number], _, rfl, by decide⟩
    · exact ⟨[.word "Stir", bowl, .word "for", .number], _, rfl, by decide⟩
    · exact ⟨[.word "Stir", .word "for", .number], _, rfl, by decide⟩
    · exact ⟨[.word "Stir", .word "for", .number], _, rfl, by decide⟩
  obtain ⟨es, w, hes, hw⟩ := htimes
  have hsentence : t :: (X ++ u :: B) = (t :: X ++ [u]) ++ B := by simp
  rw [hes, hsentence]
  exact not_cuts_of_isPlain hw hB hplain

/-- The words for all dry ingredients. -/
def dry : Pattern := [.word "dry", .word "ingredients"]

/-- Adding the dry ingredients has a phrase of its own, which comes before that of
adding any other. -/
theorem readAlike_addTo (hpattern : addTo.pattern = es ++ .vessel v :: fs)
    (hts : es.Cuts ts cs) (hus : fs.Cuts us ds) : v.ReadAlike ts us := by
  obtain ⟨rfl, rfl, t, X, u, rfl, ht, hX, hu⟩ := exists_of_working hpattern hts hus
  by_cases hdry : ∃ cs, Cuts dry X cs
  · obtain ⟨cs, hdry⟩ := hdry
    have hto : Cuts [.word "to"] [u] [.nothing] :=
      cuts_word_iff.2 ⟨u, [], [], rfl, hu, rfl, rfl, rfl⟩
    have hfront : Cuts (.word "Add" :: (dry ++ [.word "to"])) (t :: (X ++ [u]))
        (.nothing :: (cs ++ [.nothing])) :=
      cuts_word_iff.2 ⟨t, _, _, rfl, ht, rfl, cuts_append_iff.2 ⟨X, [u], _, _, rfl, rfl, hdry, hto⟩⟩
    exact readAlike_of_mem_singles (p := addDryTo) (by decide) rfl hfront
      (cuts_nil_iff.2 ⟨rfl, rfl⟩)
  · have hw : Vessel.bowl.IsOutside "to" := by decide
    refine readAlike_of_working (p := addTo) (by decide) rfl rfl ht hX hu hw
      fun B n hB hplain q hq cs' => ?_
    have hrivals : addTo.before.filter (mayOpen "Add") = [addDryTo, addDry] := rfl
    simp only [hrivals, List.mem_cons, List.not_mem_nil, or_false] at hq
    rcases hq with rfl | rfl
    · -- the sentence would have a second cut, with the dry ingredients as its ingredient
      show ¬ Cuts (.word "Add" :: (dry ++ [.word "to", bowl])) _ cs'
      rw [cuts_word_iff]
      rintro ⟨_, _, cs', h, -, -, hcut⟩
      obtain ⟨rfl, rfl⟩ := List.cons.inj h
      obtain ⟨X', B', cs₁, cs₂, hs, -, hX', hB'⟩ := cuts_append_iff.1 hcut
      have hne : X' ≠ [] := by
        obtain ⟨_, _, _, rfl, -⟩ := cuts_word_iff.1 hX'
        simp
      have hcut' := cuts_ingredient_iff.2 ⟨X', B', cs₂, hs, hne, rfl, hB'⟩
      rw [Phrase.bowl, cuts_ingredient_word_vessel_iff hX hu hw hB hplain] at hcut'
      cases hcut'
      exact hdry ⟨cs₁, hX'⟩
    · have hsentence : t :: (X ++ u :: B) = (t :: X ++ [u]) ++ B := by simp
      rw [hsentence]
      show ¬ Cuts ([.word "Add", .word "dry"] ++ [.word "ingredients"]) _ cs'
      exact not_cuts_of_isPlain (by decide) hB hplain

/-- The words in front of what is poured. -/
def pouring : Pattern := [.word "Pour", .word "contents", .word "of"]

/-- What is poured from a bowl into a dish is read alike for all names of the one and
of the other. -/
theorem readAlike_pour (hpattern : pour.pattern = es ++ .vessel v :: fs)
    (hts : es.Cuts ts cs) (hus : fs.Cuts us ds) : v.ReadAlike ts us := by
  have hcases : (es = pouring ∧ v = .bowl ∧ fs = [.word "into", .vessel .dish]) ∨
      (es = pouring ++ [.vessel .bowl, .word "into"] ∧ v = .dish ∧ fs = []) := by
    rcases es with _ | ⟨_, _ | ⟨_, _ | ⟨_, _ | ⟨_, _ | ⟨_, _ | ⟨_, es⟩⟩⟩⟩⟩⟩ <;>
      simp_all [pour, pouring, bowl, dish]
  have hcuts {s A D : List Token} {u : Token} {m d : UInt32} {cs ds : List Capture}
      (hs : Cuts pouring s ds) (hA : Vessel.bowl.Names A m) (hu : u.lexeme = "into")
      (hD : Vessel.dish.Names D d) :
      Cuts (pouring ++ [bowl, .word "into", dish]) (s ++ (A ++ u :: D)) cs ↔
        cs = ds ++ [.vessel .bowl m, .nothing, .vessel .dish d] := by
    rw [cuts_single_append_iff (by decide) hs, bowl, dish]
    simp only [cuts_vessel_word_vessel_iff hA hu (by decide) (by decide) hD, exists_eq_right]
  rcases hcases with ⟨rfl, rfl, rfl⟩ | ⟨rfl, rfl, rfl⟩
  · obtain ⟨u, D, _, rfl, hu, -, hlast⟩ := cuts_word_iff.1 hus
    obtain ⟨d, hD, -⟩ := cuts_vessel_last_iff.1 hlast
    refine readAlike_of_cuts (p := pour)
      (D := fun n => cs ++ .vessel .bowl n :: [.nothing, .vessel .dish d]) (by decide) rfl
      (Q := []) rfl (fun n => Vessel.captured_ofList (by simp)) (by simp) fun A m hA _ cs => ?_
    exact hcuts hts hA hu hD
  · obtain ⟨rfl, -⟩ := cuts_nil_iff.1 hus
    obtain ⟨s, _, cs₀, _, rfl, -, hs, hbowl⟩ := cuts_append_iff.1 hts
    obtain ⟨A, _, m, _, rfl, hA, -, hword⟩ := cuts_vessel_iff.1 hbowl
    obtain ⟨u, _, _, rfl, hu, -, hnil⟩ := cuts_word_iff.1 hword
    obtain ⟨rfl, -⟩ := cuts_nil_iff.1 hnil
    refine readAlike_of_cuts (p := pour)
      (D := fun n => (cs₀ ++ [.vessel .bowl m, .nothing]) ++ [.vessel .dish n]) (by decide) rfl
      (Q := []) rfl (fun n => Vessel.captured_ofList (by simp)) (by simp) fun D d hD _ cs => ?_
    have hsentence : s ++ (A ++ [u]) ++ (D ++ []) = s ++ (A ++ u :: D) := by simp
    rw [hsentence, List.append_assoc]
    exact hcuts hs hA hu hD

/-- The plain names of a vessel are read alike in every phrase that has one. -/
theorem readAlike_of_mem (hp : p ∈ all) (hpattern : p.pattern = es ++ .vessel v :: fs)
    (hts : es.Cuts ts cs) (hus : fs.Cuts us ds) : v.ReadAlike ts us := by
  rcases mem_of_vessel_mem hp (v := v) (by simp [hpattern]) with hp | hp | rfl | rfl | rfl | rfl
  · exact readAlike_of_mem_singles hp hpattern hts hus
  · exact readAlike_of_mem_workings hp hpattern hts hus
  · exact readAlike_stirMinutes hpattern hts hus
  · exact readAlike_stirInto hpattern hts hus
  · exact readAlike_addTo hpattern hts hus
  · exact readAlike_pour hpattern hts hus

end Phrase

/-! ## Statements -/

/-- A sentence is read as its phrase and what that picks out have it. -/
theorem Instruction.read_of_find? {s : List Token} {p : Phrase} {c : Captures}
    (h : Phrase.find? s = some (p, c)) :
    ∃ t, s.head? = some t ∧
      (∀ cause, p.objection? c = some cause → read s = .error (t.error cause)) ∧
      (p.objection? c = none → read s = .ok (some (p.instruction c t.location))) := by
  cases s with
  | nil => cases h
  | cons t s =>
    refine ⟨t, rfl, fun cause hcause => ?_, fun hnone => ?_⟩
    · simp only [read, h, hcause]
    · simp only [read, h, hnone]

/-- The ways to write a vessel can stand for one another in every phrase of the table
that has one, whatever tokens the rest of the sentence is made of: both sentences are
read as the same instruction, for the vessel that is written, or both are refused for
the same reason, at their first token. -/
theorem spellings_agree {p : Phrase} {v : Vessel} {es fs : Pattern} {ts us s s' : List Token}
    {cs ds : List Capture} {n : UInt32} {B B' : List Text} (hp : p ∈ Phrase.all)
    (hpattern : p.pattern = es ++ .vessel v :: fs) (hts : es.Cuts ts cs) (hus : fs.Cuts us ds)
    (hn : n ≠ 0) (hB : B ∈ v.spellings n) (hB' : B' ∈ v.spellings n)
    (hs : s.map Token.bare = (ts ++ (B.map Token.ofLexeme ++ us)).map Token.bare)
    (hs' : s'.map Token.bare = (ts ++ (B'.map Token.ofLexeme ++ us)).map Token.bare) :
    (∃ i i', Instruction.read s = .ok (some i) ∧ Instruction.read s' = .ok (some i') ∧
      i.Agrees i' ∧ v.numberIn i = n) ∨
    ∃ t t' cause, s.head? = some t ∧ s'.head? = some t' ∧
      Instruction.read s = .error (t.error cause) ∧
      Instruction.read s' = .error (t'.error cause) := by
  obtain ⟨q, c, hc, halike⟩ := Phrase.readAlike_of_mem hp hpattern hts hus
  have hfind {B : List Text} {s : List Token} (hB : B ∈ v.spellings n)
      (hs : s.map Token.bare = (ts ++ (B.map Token.ofLexeme ++ us)).map Token.bare) :
      Phrase.find? s = some (q, c n) := by
    have hnames := Vessel.names_of_mem_spellings hn hB
    rw [← Phrase.find?_map_bare, hs, Phrase.find?_map_bare]
    exact halike _ n hnames hnames.isPlain
  obtain ⟨t, ht, herror, hok⟩ := Instruction.read_of_find? (hfind hB hs)
  obtain ⟨t', ht', herror', hok'⟩ := Instruction.read_of_find? (hfind hB' hs')
  cases hobjection : q.objection? (c n) with
  | some cause =>
    exact .inr ⟨t, t', cause, ht, ht', herror cause hobjection, herror' cause hobjection⟩
  | none =>
    exact .inl ⟨_, _, hok hobjection, hok' hobjection, rfl,
      Vessel.numberIn_instruction (hc n) _⟩

/-- An ingredient with a bowl in its name is put into another bowl. -/
theorem spellings_agree_put :
    let X : List Text := ["oil", "into", "mixing", "bowl", "3"]
    let put : List Text := "Put" :: (X ++ [Text.ofString "into"])
    let s := (put ++ [Text.ofString "the", "2nd", "mixing", "bowl"]).map Token.ofLexeme
    let s' := (put ++ [Text.ofString "mixing", "bowl", "2"]).map Token.ofLexeme
    ∃ i i', Instruction.read s = .ok (some i) ∧ Instruction.read s' = .ok (some i') ∧
      i.Agrees i' ∧ i.bowl = 2 := by
  intro X put s s'
  have hnumber : Decimal.ofNat (2 : UInt32).toNat = "2" := by
    rw [Decimal.ofNat]
    rfl
  have hordinal : [Text.ofString "the", "2nd", "mixing", "bowl"] ∈ Vessel.bowl.spellings 2 := by
    rw [Vessel.spellings, Vessel.numbered, hnumber]
    decide
  have hplain : [Text.ofString "mixing", "bowl", "2"] ∈ Vessel.bowl.spellings 2 := by
    rw [Vessel.spellings, Vessel.numbered, hnumber]
    decide
  have hput : Pattern.Cuts [.word "Put", .ingredient, .word "into"] (put.map Token.ofLexeme)
      [.nothing, .ingredient (X.map Token.ofLexeme), .nothing] := by
    refine Pattern.cuts_word_iff.2 ⟨_, _, _, rfl, rfl, rfl, Pattern.cuts_ingredient_iff.2
      ⟨_, [Token.ofLexeme "into"], _, rfl, by simp [X], rfl, ?_⟩⟩
    exact Pattern.cuts_word_iff.2 ⟨_, [], [], rfl, rfl, rfl, rfl, rfl⟩
  have hmem : Phrase.put ∈ Phrase.all := by decide
  have hnil : Pattern.Cuts [] [] [] := ⟨rfl, rfl⟩
  rcases spellings_agree hmem rfl hput hnil (by decide) hordinal hplain
    (show s.map Token.bare = _ from rfl) (show s'.map Token.bare = _ from rfl) with
    h | ⟨t, _, cause, -, -, herror, -⟩
  · exact h
  · have hok : (Instruction.read s).isOk = true := by decide
    rw [herror] at hok
    cases hok

end Cookbook
