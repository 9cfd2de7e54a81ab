import Cookbook.Instruction.Sentence
import Cookbook.Proofs.Phrase.Cuts
import Cookbook.Proofs.Token.Words

/-!
# Cookbook.Proofs.Phrase.Vessels

Names of bowls and dishes.  A run of tokens names at most one vessel of a kind
(`Names.unique`), the words that separate a vessel from the rest of a statement
occur in no name (`Names.not_isOutside`), and every vessel has a plain name
(`names_wording`), the one that statements are written with.
-/

namespace Cookbook

namespace Vessel

/-! ## What a name tells -/

theorem ordinal?_the : ordinal? "the" = none := by decide

theorem ordinal?_words (v : Vessel) : ordinal? v.words.1 = none := by
  cases v <;> decide

theorem words_ne_the (v : Vessel) : v.words.1 ≠ "the" := by
  cases v <;> decide

theorem Counts.unique {v : Vessel} {s : List Token} {m n : UInt32} (hm : v.Counts s m)
    (hn : v.Counts s n) : m = n := by
  have hword := v.ordinal?_words
  obtain ⟨a, b, ha, -, hm⟩ := hm
  obtain ⟨a', b', ha', -, hn⟩ := hn
  rcases hm with ⟨rfl, rfl⟩ | ⟨o, rfl, ho⟩ | ⟨c, rfl, hc⟩ <;>
    rcases hn with ⟨hs, rfl⟩ | ⟨o', hs, ho'⟩ | ⟨c', hs, hc'⟩ <;> grind

theorem Counts.ne_the {v : Vessel} {t : Token} {s : List Token} {n : UInt32}
    (h : v.Counts (t :: s) n) : t.lexeme ≠ "the" := by
  have hthe := ordinal?_the
  have hword := v.words_ne_the
  obtain ⟨a, b, ha, -, ⟨hs, -⟩ | ⟨o, hs, ho⟩ | ⟨c, hs, -⟩⟩ := h <;> grind

/-- A run of tokens names one vessel at most. -/
theorem Names.unique {v : Vessel} {s : List Token} {m n : UInt32} (hm : v.Names s m)
    (hn : v.Names s n) : m = n := by
  rcases hm with hm | ⟨t, s', rfl, ht, hm⟩ <;> rcases hn with hn | ⟨t', s'', hs, ht', hn⟩
  · exact hm.unique hn
  · exact absurd ht' (by subst hs; exact hm.ne_the)
  · exact absurd ht hn.ne_the
  · rw [List.cons.injEq] at hs
    exact hm.unique (hs.2 ▸ hn)

theorem ne_zero_of_vesselNumber? {z : Int} {n : UInt32} (h : Cookbook.vesselNumber? z = some n) :
    n ≠ 0 := by
  rw [Cookbook.vesselNumber?] at h
  split at h
  · next hz =>
    rw [Option.some.injEq] at h
    rintro rfl
    have hnat : (UInt32.ofNat z.toNat).toNat = 0 := by rw [h]; rfl
    rw [UInt32.toNat_ofNat_of_lt' (by omega)] at hnat
    omega
  · cases h

theorem ne_zero_of_ordinal? {w : Text} {n : UInt32} (h : ordinal? w = some n) : n ≠ 0 := by
  simp only [ordinal?] at h
  split at h
  · obtain ⟨m, -, hm⟩ := Option.bind_eq_some_iff.1 h
    exact ne_zero_of_vesselNumber? hm
  · cases h

theorem ne_zero_of_token_vesselNumber? {t : Token} {n : UInt32} (h : t.vesselNumber? = some n) :
    n ≠ 0 := by
  simp only [Token.vesselNumber?] at h
  split at h
  · exact ne_zero_of_vesselNumber? h
  · cases h

/-- Vessels count from 1. -/
theorem Names.ne_zero {v : Vessel} {s : List Token} {n : UInt32} (h : v.Names s n) : n ≠ 0 := by
  have hcount (s : List Token) (h : v.Counts s n) : n ≠ 0 := by
    obtain ⟨a, b, -, -, ⟨-, rfl⟩ | ⟨o, -, ho⟩ | ⟨c, -, hc⟩⟩ := h
    · decide
    · exact ne_zero_of_ordinal? ho
    · exact ne_zero_of_token_vesselNumber? hc
  rcases h with h | ⟨t, s', -, -, h⟩
  · exact hcount s h
  · exact hcount s' h

/-! ## Words outside of names -/

/-- A word that no name of the vessel holds. -/
def IsOutside (v : Vessel) (w : Text) : Prop :=
  w ≠ "the" ∧ w ≠ v.words.1 ∧ w ≠ v.words.2 ∧ ordinal? w = none ∧
    (Token.ofLexeme w).vesselNumber? = none

instance (v : Vessel) (w : Text) : Decidable (v.IsOutside w) :=
  inferInstanceAs (Decidable (_ ∧ _ ∧ _ ∧ _ ∧ _))

theorem Names.not_isOutside {v : Vessel} {B : List Text} {n : UInt32} {w : Text}
    (h : v.Names (B.map Token.ofLexeme) n) (hw : w ∈ B) : ¬ v.IsOutside w := by
  rintro ⟨hthe, hnoun, hkind, hord, hnum⟩
  have hmem : Token.ofLexeme w ∈ B.map Token.ofLexeme := List.mem_map_of_mem hw
  have hlex : (Token.ofLexeme w).lexeme = w := rfl
  have hcount (s : List Token) (h : v.Counts s n) (ht : Token.ofLexeme w ∈ s) : False := by
    obtain ⟨a, b, ha, hb, ⟨rfl, -⟩ | ⟨o, rfl, ho⟩ | ⟨c, rfl, hc⟩⟩ := h <;> grind
  rcases h with h | ⟨u, s', hs, hu, h⟩
  · exact hcount _ h hmem
  · rw [hs] at hmem
    rcases List.mem_cons.1 hmem with rfl | hmem
    · exact hthe hu
    · exact hcount s' h hmem

/-- A name has a first token that is not its last. -/
theorem Names.exists_cons {v : Vessel} {s : List Token} {n : UInt32} (h : v.Names s n) :
    ∃ t u s', s = t :: u :: s' := by
  rcases h with ⟨_, _, -, -, ⟨rfl, -⟩ | ⟨_, rfl, -⟩ | ⟨_, rfl, -⟩⟩ |
    ⟨_, _, rfl, -, _, _, -, -, ⟨rfl, -⟩ | ⟨_, rfl, -⟩ | ⟨_, rfl, -⟩⟩
  all_goals exact ⟨_, _, _, rfl⟩

theorem Names.two_le_length {v : Vessel} {B : List Text} {n : UInt32}
    (h : v.Names (B.map Token.ofLexeme) n) : 2 ≤ B.length := by
  obtain ⟨t, u, s, hs⟩ := h.exists_cons
  rw [← List.length_map Token.ofLexeme, hs]
  simp

/-! ## Plain names -/

/-- The plain name of a vessel: with `the`, and with a number unless it is 1. -/
def wording (v : Vessel) (n : UInt32) : List Text :=
  "the" :: v.words.1 :: v.words.2 :: if n = 1 then [] else [Decimal.ofNat n.toNat]

theorem int64?_toNat (n : UInt32) :
    Decimal.int64? n.toNat = some (Int64.ofInt n.toNat) ∧
      (Int64.ofInt n.toNat).toInt = n.toNat := by
  have hn : n.toNat < UInt32.size := n.toNat_lt_size
  have hmin : Int64.minValue.toInt = -9223372036854775808 := by decide
  have hmax : Int64.maxValue.toInt = 9223372036854775807 := by decide
  have hsize : UInt32.size = 4294967296 := rfl
  refine ⟨?_, ?_⟩
  · rw [Decimal.int64?, if_pos]
    omega
  · rw [Int64.toInt_ofInt_of_le] <;> omega

theorem vesselNumber?_ofNat {n : UInt32} (h : n ≠ 0) :
    (Token.ofLexeme (Decimal.ofNat n.toNat)).vesselNumber? = some n := by
  have hn : n.toNat < UInt32.size := n.toNat_lt_size
  have hpos : n.toNat ≠ 0 := fun h0 => h (by rw [← UInt32.toNat_inj]; exact h0)
  obtain ⟨hsome, hint⟩ := int64?_toNat n
  simp only [Token.vesselNumber?, Token.kind_ofLexeme, Token.Kind.ofLexeme_ofNat, hsome,
    Option.elim_some, hint]
  rw [Cookbook.vesselNumber?, if_pos (by omega), Int.toNat_natCast, UInt32.ofNat_toNat]

/-- The plain name of a vessel names it. -/
theorem names_wording (v : Vessel) {n : UInt32} (h : n ≠ 0) :
    v.Names ((v.wording n).map Token.ofLexeme) n := by
  refine .inr ⟨Token.ofLexeme "the", _, rfl, rfl, Token.ofLexeme v.words.1,
    Token.ofLexeme v.words.2, rfl, rfl, ?_⟩
  split
  · next h1 => exact .inl ⟨rfl, h1⟩
  · exact .inr (.inr ⟨_, rfl, vesselNumber?_ofNat h⟩)

theorem isPlain_of_mem_wording {v : Vessel} {n : UInt32} {w : Text} (h : w ∈ v.wording n) :
    w.IsPlain := by
  have hfixed : Text.IsPlain "the" ∧ Text.IsPlain v.words.1 ∧ Text.IsPlain v.words.2 := by
    cases v <;> decide
  simp only [wording, List.mem_cons] at h
  rcases h with rfl | rfl | rfl | h
  · exact hfixed.1
  · exact hfixed.2.1
  · exact hfixed.2.2
  · split at h
    · simp at h
    · rw [List.mem_singleton] at h
      subst h
      refine ⟨Decimal.isWordy_ofNat _, Decimal.noNul_ofNat _, ?_⟩
      rw [Token.Kind.ofLexeme_ofNat, (int64?_toNat n).1]
      simp

theorem spaced_wording (v : Vessel) (n : UInt32) :
    spaced (v.wording n) = Instruction.vessel (v.words.1 ++ " " ++ v.words.2) n := by
  rw [wording, Instruction.vessel]
  split
  · cases v <;> rfl
  · cases v <;> simp [spaced] <;> rfl

end Vessel

theorem Instruction.bowlPhrase_eq (i : Instruction) :
    i.bowlPhrase = spaced (Vessel.bowl.wording i.bowl) :=
  (Vessel.spaced_wording .bowl i.bowl).symm

theorem Instruction.dishPhrase_eq (i : Instruction) :
    i.dishPhrase = spaced (Vessel.dish.wording i.dish) :=
  (Vessel.spaced_wording .dish i.dish).symm

end Cookbook
