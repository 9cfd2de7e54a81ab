/-!
# Cookbook.Text

Recipe books, names and everything that is served are byte texts.  Columns
count bytes, case is folded for the letters `A` to `Z` only, and a byte above
127 is never a blank, a digit or a letter with case: it is part of a word.

This module fixes the classes of bytes that the rest of the library speaks of.
-/

namespace Cookbook

/-- A text is its sequence of bytes. -/
abbrev Text := List UInt8

namespace Text

/-- The UTF-8 bytes of a string. -/
def ofString (s : String) : Text := s.toUTF8.data.toList

instance : Coe String Text := ⟨ofString⟩

/-! ## Classes of bytes -/

/-- The byte that ends a line. -/
def lineFeed : UInt8 := 10

/-- The byte that ends a sentence. -/
def fullStop : UInt8 := 46

/-- The byte between two words of a joined name. -/
def space : UInt8 := 32

/-- A decimal digit. -/
def isDigit (b : UInt8) : Bool := 48 ≤ b && b ≤ 57

/-- A horizontal blank: any byte from 1 to 32 that does not end a line. -/
def isBlank (b : UInt8) : Bool := 1 ≤ b && b ≤ 32 && b != lineFeed

/-- A horizontal blank or a line feed. -/
def isWhite (b : UInt8) : Bool := isBlank b || b == lineFeed

/-- A byte that a word or a number may hold. -/
def isWordByte (b : UInt8) : Bool := !isWhite b && b != fullStop

theorem isWhite_of_isBlank {b : UInt8} (h : isBlank b) : isWhite b := by
  simp [isWhite, h]

theorem isBlank_lineFeed : isBlank lineFeed = false := by decide

/-! ## Operations -/

/-- The part in front of the first NUL byte, which ends a book and a message. -/
def untilNul (t : Text) : Text := t.takeWhile (· != 0)

theorem untilNul_eq_self {t : Text} (h : ∀ b ∈ t, b ≠ 0) : t.untilNul = t := by
  induction t with
  | nil => rfl
  | cons b t ih =>
    have hb : b ≠ 0 := h b (by simp)
    have ht : untilNul t = t := ih fun c hc => h c (by simp [hc])
    simp only [untilNul] at ht
    simp [untilNul, hb, ht]

/-- The lower-case form of a letter from `A` to `Z`; every other byte is kept. -/
def lowerByte (b : UInt8) : UInt8 := if 65 ≤ b && b ≤ 90 then b + 32 else b

/-- A text with its letters from `A` to `Z` in lower case. -/
def lower (t : Text) : Text := t.map lowerByte

theorem lowerByte_lowerByte (b : UInt8) : lowerByte (lowerByte b) = lowerByte b := by
  simp only [lowerByte]
  split
  · next h =>
    simp only [Bool.and_eq_true, decide_eq_true_eq] at h
    rw [if_neg]
    simp only [Bool.and_eq_true, decide_eq_true_eq, not_and]
    intro _ hle
    rw [UInt8.le_iff_toNat_le] at h hle
    have := UInt8.le_iff_toNat_le.1 h.2
    rw [UInt8.toNat_add] at hle
    simp at h hle this
    omega
  · rfl

/-- Folding case twice is folding it once. -/
theorem lower_lower (t : Text) : lower (lower t) = lower t := by
  simp [lower, lowerByte_lowerByte]

/-- A text between single quotation marks. -/
def quoted (t : Text) : Text := "'" ++ t ++ "'"

end Text

end Cookbook
