import Cookbook.Text

/-!
# Cookbook.Decimal

Decimal notation of whole numbers: the digits without leading zeros, after a
minus sign when the number is negative.  Reading accepts leading zeros.
-/

namespace Cookbook

namespace Decimal

/-! ## Writing -/

/-- The digit of a number below ten. -/
def digit (n : Nat) : UInt8 := UInt8.ofNat (48 + n)

/-- The digits of a number, most significant first. -/
def ofNat (n : Nat) : Text :=
  if n < 10 then [digit n] else ofNat (n / 10) ++ [digit (n % 10)]
termination_by n

/-- The digits of the magnitude, after a minus sign if the number is negative. -/
def ofInt : Int → Text
  | .ofNat n => ofNat n
  | .negSucc n => "-" ++ ofNat (n + 1)

/-- The decimal notation of a 64-bit number. -/
def ofInt64 (n : Int64) : Text := ofInt n.toInt

/-! ## Reading -/

/-- The number that a run of digits denotes. -/
def value (digits : Text) : Nat := digits.foldl (fun n b => 10 * n + (b.toNat - 48)) 0

/-- The number that a non-empty text of digits denotes. -/
def nat? (t : Text) : Option Nat :=
  if t ≠ [] ∧ t.all Text.isDigit then some (value t) else none

/-- A whole number as a 64-bit number, if it lies in the range. -/
def int64? (n : Int) : Option Int64 :=
  if Int64.minValue.toInt ≤ n ∧ n ≤ Int64.maxValue.toInt then some (Int64.ofInt n) else none

/-- The white space in front of a number that is typed: space, tab, line feed,
vertical tab, form feed and carriage return. -/
def isSpace (b : UInt8) : Bool := b == 32 || (9 ≤ b && b ≤ 13)

/-- Takes a sign off a text; `true` stands for minus. -/
def splitSign : Text → Bool × Text
  | [] => (false, [])
  | b :: rest =>
    if b = 45 then (true, rest) else if b = 43 then (false, rest) else (false, b :: rest)

/-- A 64-bit number at the start of a text, a minus sign allowed, together with
what follows its last digit. -/
def leadingInt64? (t : Text) : Option (Int64 × Text) :=
  let negative := t.head? = some 45
  let body := if negative then t.tail else t
  let digits := body.takeWhile Text.isDigit
  (nat? digits).bind fun n =>
    (int64? (if negative then -n else n)).map fun v => (v, body.dropWhile Text.isDigit)

/-! ## Writing, then reading -/

theorem value_append (s t : Text) :
    value (s ++ t) = t.foldl (fun n b => 10 * n + (b.toNat - 48)) (value s) := by
  simp [value]

theorem toNat_digit {n : Nat} (h : n < 10) : (digit n).toNat = 48 + n := by
  simp [digit]
  omega

theorem isDigit_digit {n : Nat} (h : n < 10) : Text.isDigit (digit n) := by
  simp [Text.isDigit, UInt8.le_iff_toNat_le, toNat_digit h]
  omega

theorem ofNat_ne_nil (n : Nat) : ofNat n ≠ [] := by
  rw [ofNat]
  split <;> simp

theorem all_isDigit_ofNat (n : Nat) : (ofNat n).all Text.isDigit := by
  induction n using Nat.strongRecOn with
  | ind n ih =>
    rw [ofNat]
    split
    · next h => simp [isDigit_digit h]
    · next h =>
      rw [List.all_append, ih (n / 10) (by omega)]
      simp [isDigit_digit (Nat.mod_lt n (by omega : 0 < 10))]

theorem value_ofNat (n : Nat) : value (ofNat n) = n := by
  induction n using Nat.strongRecOn with
  | ind n ih =>
    rw [ofNat]
    split
    · next h => simp [value, toNat_digit h]
    · next h =>
      rw [value_append, ih (n / 10) (by omega)]
      simp [toNat_digit (Nat.mod_lt n (by omega : 0 < 10))]
      omega

/-- The digits of a number read back as the number. -/
theorem nat?_ofNat (n : Nat) : nat? (ofNat n) = some n := by
  rw [nat?, if_pos ⟨ofNat_ne_nil n, all_isDigit_ofNat n⟩, value_ofNat]

end Decimal

end Cookbook
