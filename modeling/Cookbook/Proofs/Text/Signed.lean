import Cookbook.Decimal

/-!
# Cookbook.Proofs.Text.Signed

Whole numbers as they are written (`Decimal.Signed`).  Taking the sign off leaves the
digits, so what is in front of the digits decides which number is written
(`Decimal.signed_iff`).
-/

namespace Cookbook

namespace Decimal

/-- A whole number as it is written: digits, with or without a sign in front. -/
inductive Signed : Text → Int → Prop where
  | unsigned {digits : Text} (hne : digits ≠ []) (hdigits : ∀ b ∈ digits, Text.isDigit b) :
    Signed digits (value digits)
  | plus {digits : Text} (hne : digits ≠ []) (hdigits : ∀ b ∈ digits, Text.isDigit b) :
    Signed (43 :: digits) (value digits)
  | minus {digits : Text} (hne : digits ≠ []) (hdigits : ∀ b ∈ digits, Text.isDigit b) :
    Signed (45 :: digits) (-value digits)

theorem not_isSpace_of_isDigit {b : UInt8} (h : Text.isDigit b) : ¬ isSpace b := by
  simp only [Text.isDigit, isSpace, Bool.and_eq_true, decide_eq_true_eq, Bool.or_eq_true,
    beq_iff_eq, UInt8.le_iff_toNat_le, ← UInt8.toNat_inj, UInt8.reduceToNat] at h ⊢
  omega

/-- A number is written in its usual notation, among others. -/
theorem signed_ofInt64 (n : Int64) : Signed (ofInt64 n) n.toInt := by
  have hdigits (m : Nat) : ∀ b ∈ ofNat m, Text.isDigit b := List.all_eq_true.1 (all_isDigit_ofNat m)
  rw [ofInt64]
  cases n.toInt with
  | ofNat m =>
    have h := Signed.unsigned (ofNat_ne_nil m) (hdigits m)
    rwa [value_ofNat] at h
  | negSucc m =>
    have h := Signed.minus (ofNat_ne_nil (m + 1)) (hdigits (m + 1))
    rwa [value_ofNat] at h

/-- The parts that a signed number is taken apart into. -/
theorem Signed.exists_split {numeral : Text} {z : Int} (h : Signed numeral z) :
    (∃ b, numeral.head? = some b ∧ ¬ isSpace b) ∧
    ∃ negative digits, digits ≠ [] ∧ (∀ b ∈ digits, Text.isDigit b) ∧
      (if negative then -(value digits : Int) else value digits) = z ∧
      ∀ rest, splitSign (numeral ++ rest) = (negative, digits ++ rest) := by
  cases h with
  | unsigned hne hdigits =>
    cases numeral with
    | nil => exact absurd rfl hne
    | cons b digits =>
      have hb : Text.isDigit b := hdigits b List.mem_cons_self
      have hplus : b ≠ 43 := by rintro rfl; exact absurd hb (by decide)
      have hminus : b ≠ 45 := by rintro rfl; exact absurd hb (by decide)
      refine ⟨⟨b, rfl, not_isSpace_of_isDigit hb⟩, false, b :: digits, hne, hdigits, rfl, ?_⟩
      intro rest
      rw [List.cons_append, splitSign, if_neg hminus, if_neg hplus]
  | plus hne hdigits =>
    exact ⟨⟨43, rfl, by decide⟩, false, _, hne, hdigits, rfl, fun rest => rfl⟩
  | minus hne hdigits =>
    exact ⟨⟨45, rfl, by decide⟩, true, _, hne, hdigits, rfl, fun rest => rfl⟩

variable {t : Text} {n : Nat} {z : Int}

theorem signed_iff : Signed t z ↔
    (splitSign t).2 ≠ [] ∧ (∀ b ∈ (splitSign t).2, Text.isDigit b) ∧
      (if (splitSign t).1 then -(value (splitSign t).2 : Int) else value (splitSign t).2) = z := by
  constructor
  · intro h
    obtain ⟨-, negative, digits, hne, hdigits, hvalue, hsplit⟩ := h.exists_split
    have hparts := hsplit []
    rw [List.append_nil, List.append_nil] at hparts
    rw [hparts]
    exact ⟨hne, hdigits, hvalue⟩
  · rintro ⟨hne, hdigits, rfl⟩
    cases t with
    | nil => exact absurd rfl hne
    | cons b rest =>
      by_cases hminus : b = 45
      · subst hminus
        exact .minus hne hdigits
      by_cases hplus : b = 43
      · subst hplus
        exact .plus hne hdigits
      rw [splitSign, if_neg hminus, if_neg hplus] at hne hdigits ⊢
      exact .unsigned hne hdigits

/-- Only one number is written in a way. -/
theorem Signed.unique {z' : Int} (h : Signed t z) (h' : Signed t z') : z = z' :=
  (signed_iff.1 h).2.2.symm.trans (signed_iff.1 h').2.2

theorem nat?_eq_some_iff :
    nat? t = some n ↔ t ≠ [] ∧ (∀ b ∈ t, Text.isDigit b) ∧ value t = n := by
  rw [nat?, Option.ite_none_right_eq_some, Option.some.injEq, and_assoc, List.all_eq_true]

end Decimal

end Cookbook
