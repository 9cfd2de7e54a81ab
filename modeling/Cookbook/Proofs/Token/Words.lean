import Cookbook.Proofs.Token.Lexemes

/-!
# Cookbook.Proofs.Token.Words

Words and numbers as they are written out: which bytes they hold, and the kind
of token they are scanned as.  Decimal digits are scanned as the number they
stand for (`ofLexeme_ofInt64`), and a word in lower case is still a word
(`isWord_ofLexeme_lower`).
-/

namespace Cookbook

open Text

/-! ## Texts of words -/

namespace Text

@[simp] theorem ofString_inj {a b : String} : ofString a = ofString b ↔ a = b := by
  constructor
  · intro h
    have hbytes : a.toUTF8 = b.toUTF8 := by
      apply ByteArray.ext
      exact Array.toList_inj.1 h
    exact String.toByteArray_inj.1 hbytes
  · rintro rfl
    rfl

instance (l : Text) : Decidable l.IsWordy :=
  decidable_of_iff (l ≠ [] ∧ l.all isWordByte) (by rw [IsWordy, List.all_eq_true])

/-- A word or a number that may stand in a statement. -/
structure IsPlain (w : Text) : Prop where
  isWordy : w.IsWordy
  noNul : (0 : UInt8) ∉ w
  expected : Token.Kind.ofLexeme w ≠ .unexpected

instance (w : Text) : Decidable w.IsPlain :=
  decidable_of_iff (w.IsWordy ∧ (0 : UInt8) ∉ w ∧ Token.Kind.ofLexeme w ≠ .unexpected)
    ⟨fun h => ⟨h.1, h.2.1, h.2.2⟩, fun h => ⟨h.1, h.2, h.3⟩⟩

theorem IsPlain.isLexeme {w : Text} (h : w.IsPlain) : w.IsLexeme := .inl h.isWordy

theorem IsPlain.ne_fullStop {w : Text} (h : w.IsPlain) : w ≠ [fullStop] := by
  rintro rfl
  exact absurd h.isWordy (by decide)

end Text

/-- Plain words may stand side by side. -/
theorem spelled_of_isPlain {ws : List Text} (h : ∀ w ∈ ws, w.IsPlain) : Spelled ws := by
  induction ws with
  | nil => exact .nil
  | cons w ws ih =>
    rw [List.forall_mem_cons] at h
    exact .cons_of_isWordy h.1.isWordy h.1.noNul (ih h.2)

/-! ## Numbers -/

theorem isDigit_iff_toNat {b : UInt8} : isDigit b ↔ 48 ≤ b.toNat ∧ b.toNat ≤ 57 := by
  simp [isDigit, UInt8.le_iff_toNat_le]

theorem isWordByte_iff_toNat {b : UInt8} :
    isWordByte b ↔ (b.toNat = 0 ∨ 32 < b.toNat) ∧ b.toNat ≠ 46 := by
  have hne (c : UInt8) : b ≠ c ↔ b.toNat ≠ c.toNat := by rw [ne_eq, ← UInt8.toNat_inj]
  simp only [isWordByte, isWhite, isBlank, lineFeed, fullStop, Bool.and_eq_true, bne_iff_ne,
    Bool.not_eq_true', Bool.or_eq_false_iff, Bool.and_eq_false_iff, decide_eq_false_iff_not,
    bne_eq_false_iff_eq, beq_eq_false_iff_ne, UInt8.le_iff_toNat_le, hne, ← UInt8.toNat_inj,
    UInt8.reduceToNat]
  omega

theorem isWordByte_of_isDigit {b : UInt8} (h : isDigit b) : isWordByte b := by
  rw [isDigit_iff_toNat] at h
  rw [isWordByte_iff_toNat]
  omega

theorem ne_zero_of_isDigit {b : UInt8} (h : isDigit b) : b ≠ 0 := by
  rintro rfl
  exact absurd h (by decide)

namespace Decimal

theorem isDigit_of_mem_ofNat {n : Nat} {b : UInt8} (h : b ∈ ofNat n) : isDigit b :=
  List.all_eq_true.1 (all_isDigit_ofNat n) b h

theorem isWordy_ofNat (n : Nat) : (ofNat n).IsWordy :=
  ⟨ofNat_ne_nil n, fun _ hb => isWordByte_of_isDigit (isDigit_of_mem_ofNat hb)⟩

theorem noNul_ofNat (n : Nat) : (0 : UInt8) ∉ ofNat n :=
  fun h => ne_zero_of_isDigit (isDigit_of_mem_ofNat h) rfl

theorem int64?_toInt (n : Int64) : int64? n.toInt = some n := by
  rw [int64?, if_pos ⟨n.minValue_le_toInt, n.toInt_le⟩, Int64.ofInt_toInt]

theorem int64?_eq_some_iff {m : Int} {n : Int64} : int64? m = some n ↔ n.toInt = m := by
  constructor
  · intro h
    rw [int64?] at h
    split at h
    · next hm =>
      cases h
      exact Int64.toInt_ofInt_of_le hm.1 (Int.lt_of_le_of_lt hm.2 (by decide))
    · cases h
  · rintro rfl
    exact int64?_toInt n

/-- The notation of a number that is not negative has no sign. -/
theorem ofInt64_eq_ofNat {n : Int64} (h : 0 ≤ n) : ofInt64 n = ofNat n.toInt.toNat := by
  have h0 : 0 ≤ n.toInt := Int64.le_iff_toInt_le.1 h
  rw [ofInt64]
  cases hn : n.toInt with
  | ofNat m => rfl
  | negSucc m =>
    rw [hn] at h0
    exact absurd h0 (by omega)

end Decimal

namespace Token.Kind

/-- A word byte in front rules out gaps and periods. -/
theorem ofLexeme_of_isWordy {w : Text} (h : w.IsWordy) :
    ofLexeme w = if w.all isDigit then ofDigits w else ofWord w := by
  cases w with
  | nil => exact absurd rfl h.1
  | cons b w =>
    have hb := h.2 b (by simp)
    rw [ofLexeme, if_neg (ne_lineFeed_of_isWordByte hb), if_neg (ne_fullStop_of_isWordByte hb)]

theorem ofLexeme_ofNat (n : Nat) :
    ofLexeme (Decimal.ofNat n) = (Decimal.int64? n).elim .unexpected .number := by
  rw [ofLexeme_of_isWordy (Decimal.isWordy_ofNat n), if_pos (Decimal.all_isDigit_ofNat n), ofDigits,
    Decimal.value_ofNat]
  cases Decimal.int64? n <;> rfl

/-- A number that is not negative is scanned as itself. -/
theorem ofLexeme_ofInt64 {n : Int64} (h : 0 ≤ n) : ofLexeme (Decimal.ofInt64 n) = .number n := by
  have h0 : 0 ≤ n.toInt := Int64.le_iff_toInt_le.1 h
  rw [Decimal.ofInt64_eq_ofNat h, ofLexeme_ofNat, Int.toNat_of_nonneg h0, Decimal.int64?_toInt,
    Option.elim_some]

end Token.Kind

theorem Decimal.isPlain_ofInt64 {n : Int64} (h : 0 ≤ n) : (Decimal.ofInt64 n).IsPlain where
  isWordy := by
    rw [ofInt64_eq_ofNat h]
    exact isWordy_ofNat _
  noNul := by
    rw [ofInt64_eq_ofNat h]
    exact noNul_ofNat _
  expected := by simp [Token.Kind.ofLexeme_ofInt64 h]

/-! ## Breaks -/

/-- The ends of lines are the gaps. -/
theorem isLineEnd_ofLexeme_iff {l : Text} (h : l.IsLexeme) :
    (Token.ofLexeme l).isLineEnd ↔ l.IsGap := by
  constructor
  · intro hend
    rcases h with hw | rfl | hg
    · simp only [Token.isLineEnd, Token.kind_ofLexeme, Token.Kind.ofLexeme_of_isWordy hw,
        Token.Kind.ofDigits, Token.Kind.ofWord] at hend
      grind
    · exact absurd hend (by decide)
    · exact hg
  · intro hg
    cases l with
    | nil => simp [Text.IsGap] at hg
    | cons b l =>
      have hb : b = lineFeed := by simpa using hg.1
      simp only [Token.isLineEnd, Token.kind_ofLexeme, Token.Kind.ofLexeme, hb]
      grind

/-! ## Lower case -/

theorem toNat_lowerByte (b : UInt8) :
    (lowerByte b).toNat = if 65 ≤ b.toNat ∧ b.toNat ≤ 90 then b.toNat + 32 else b.toNat := by
  simp only [lowerByte, Bool.and_eq_true, decide_eq_true_eq, UInt8.le_iff_toNat_le,
    UInt8.reduceToNat]
  split
  · have h32 : (32 : UInt8).toNat = 32 := rfl
    rw [UInt8.toNat_add, h32, Nat.mod_eq_of_lt (by omega)]
  · rfl

theorem isDigit_lowerByte (b : UInt8) : isDigit (lowerByte b) = isDigit b := by
  rw [Bool.eq_iff_iff, isDigit_iff_toNat, isDigit_iff_toNat, toNat_lowerByte]
  split <;> omega

theorem isWordByte_lowerByte (b : UInt8) : isWordByte (lowerByte b) = isWordByte b := by
  rw [Bool.eq_iff_iff, isWordByte_iff_toNat, isWordByte_iff_toNat, toNat_lowerByte]
  split <;> omega

namespace Text

theorem IsWordy.lower {w : Text} (h : w.IsWordy) : w.lower.IsWordy := by
  refine ⟨by simpa [Text.lower] using h.1, fun b hb => ?_⟩
  obtain ⟨c, hc, rfl⟩ := List.mem_map.1 hb
  rw [isWordByte_lowerByte]
  exact h.2 c hc

theorem noNul_lower {w : Text} (h : (0 : UInt8) ∉ w) : (0 : UInt8) ∉ w.lower := by
  intro h0
  obtain ⟨c, hc, hzero⟩ := List.mem_map.1 h0
  have hnat := toNat_lowerByte c
  rw [hzero, UInt8.toNat_zero] at hnat
  have hc0 : c = 0 := by
    rw [← UInt8.toNat_inj, UInt8.toNat_zero]
    split at hnat <;> omega
  exact h (hc0 ▸ hc)

theorem all_isDigit_lower (w : Text) : w.lower.all isDigit = w.all isDigit := by
  simp [Text.lower, Function.comp_def, isDigit_lowerByte]

end Text

namespace Token

/-- Of the wordy lexemes, those that are not all digits are words. -/
theorem isWord_ofLexeme_iff {w : Text} (h : w.IsWordy) :
    (ofLexeme w).isWord ↔ w.all isDigit = false := by
  simp only [isWord, kind_ofLexeme, Kind.ofLexeme_of_isWordy h, Kind.ofDigits, Kind.ofWord]
  cases w.all isDigit
  · simp only [Bool.false_eq_true, if_false]
    split <;> grind
  · simp only [if_true]
    split <;> grind

/-- A word in lower case is a word. -/
theorem isWord_ofLexeme_lower {w : Text} (hw : w.IsWordy) (h : (ofLexeme w).isWord) :
    (ofLexeme w.lower).isWord := by
  rw [isWord_ofLexeme_iff hw] at h
  rwa [isWord_ofLexeme_iff hw.lower, Text.all_isDigit_lower]

/-- A token that is a word is wordy. -/
theorem isWordy_of_isWord {w : Text} (hl : w.IsLexeme) (h : (ofLexeme w).isWord) : w.IsWordy := by
  rcases hl with hw | rfl | hg
  · exact hw
  · exact absurd h (by decide)
  · cases w with
    | nil => simp [Text.IsGap] at hg
    | cons b w =>
      have hb := hg.1
      rw [List.head?_cons, Option.some.injEq] at hb
      simp only [isWord, kind_ofLexeme, Kind.ofLexeme, hb] at h
      grind

theorem isPlain_of_isWord {w : Text} (hw : w.IsWordy) (h0 : (0 : UInt8) ∉ w)
    (h : (ofLexeme w).isWord) : w.IsPlain where
  isWordy := hw
  noNul := h0
  expected := by
    intro hk
    simp [isWord, hk] at h

end Token

end Cookbook
