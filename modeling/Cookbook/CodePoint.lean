import Cookbook.Text

/-!
# Cookbook.CodePoint

The UTF-8 form of a character given by its number.
-/

namespace Cookbook

namespace CodePoint

/-- The numbers that stand for characters: up to 10FFFF, without the
surrogates. -/
def IsScalar (n : Int) : Prop := 0 ≤ n ∧ n ≤ 0x10FFFF ∧ ¬ (0xD800 ≤ n ∧ n ≤ 0xDFFF)

instance (n : Int) : Decidable (IsScalar n) :=
  inferInstanceAs (Decidable (0 ≤ n ∧ n ≤ 0x10FFFF ∧ ¬ (0xD800 ≤ n ∧ n ≤ 0xDFFF)))

/-- A byte that continues a character with the last six bits of a number. -/
def continuation (n : Nat) : UInt8 := UInt8.ofNat (0x80 + n % 64)

/-- The bytes of the character with the given number. -/
def bytes (n : Nat) : Text :=
  if n < 0x80 then [UInt8.ofNat n]
  else if n < 0x800 then [UInt8.ofNat (0xC0 + n / 64), continuation n]
  else if n < 0x10000 then
    [UInt8.ofNat (0xE0 + n / 4096), continuation (n / 64), continuation n]
  else
    [UInt8.ofNat (0xF0 + n / 262144), continuation (n / 4096), continuation (n / 64),
      continuation n]

/-- The bytes of a character, if the number stands for one. -/
def encode? (n : Int64) : Option Text :=
  if IsScalar n.toInt then some (bytes n.toInt.toNat) else none

end CodePoint

end Cookbook
