import Cookbook.CodePoint

/-!
# Cookbook.Proofs.Text.Utf8

What is served as characters can be read again (`encodings_decode`).  The bytes of a
character are the UTF-8 form of a `Char` (`CodePoint.encode?_eq_some_iff`), so the
library's own decoder takes them apart.  That no character is spelled longer than it
has to be is said of the bytes alone (`CodePoint.Sequence`).
-/

namespace Cookbook

namespace CodePoint

/-! ## Characters -/

theorem isScalar_toNat (c : Char) : IsScalar c.toNat := by
  have hvalid : c.toNat < 0xD800 ∨ 0xDFFF < c.toNat ∧ c.toNat < 0x110000 := c.valid
  unfold IsScalar
  omega

/-- The number of a character. -/
def ofChar (c : Char) : Int64 := Int64.ofNat c.toNat

theorem toInt_ofChar (c : Char) : (ofChar c).toInt = c.toNat := by
  have hvalid : c.toNat < 0xD800 ∨ 0xDFFF < c.toNat ∧ c.toNat < 0x110000 := c.valid
  exact Int64.toInt_ofNat_of_lt (by omega)

/-- Every scalar is the number of a character. -/
theorem ofChar_ofNat {n : Int64} (h : IsScalar n.toInt) :
    ofChar (Char.ofNat n.toInt.toNat) = n := by
  obtain ⟨hnonneg, hmost, hsurrogate⟩ := h
  have hvalid : n.toInt.toNat.isValidChar := by
    unfold Nat.isValidChar
    omega
  have hchar : (Char.ofNat n.toInt.toNat).toNat = n.toInt.toNat := by
    rw [Char.ofNat, dif_pos hvalid]
    rfl
  rw [← Int64.toInt_inj, toInt_ofChar, hchar, Int.toNat_of_nonneg hnonneg]

/-- The bytes of a character are its UTF-8 form. -/
theorem bytes_toNat (c : Char) : bytes c.toNat = String.utf8EncodeChar c := by
  have hvalid : c.toNat < 0xD800 ∨ 0xDFFF < c.toNat ∧ c.toNat < 0x110000 := c.valid
  have hval : c.val.toNat = c.toNat := rfl
  rw [bytes, String.utf8EncodeChar, hval]
  generalize c.toNat = n at hvalid
  simp only [continuation]
  rcases Nat.lt_or_ge n 0x80 with h₁ | h₁
  · rw [if_pos h₁, if_pos (show n ≤ 127 by omega)]
  · rw [if_neg (Nat.not_lt.2 h₁), if_neg (show ¬ n ≤ 127 by omega)]
    rcases Nat.lt_or_ge n 0x800 with h₂ | h₂
    · have hlead : n / 64 % 32 = n / 64 := by omega
      rw [if_pos h₂, if_pos (show n ≤ 2047 by omega), hlead, Nat.add_comm 0xC0, Nat.add_comm 0x80]
    · rw [if_neg (Nat.not_lt.2 h₂), if_neg (show ¬ n ≤ 2047 by omega)]
      rcases Nat.lt_or_ge n 0x10000 with h₃ | h₃
      · have hlead : n / 4096 % 16 = n / 4096 := by omega
        rw [if_pos h₃, if_pos (show n ≤ 65535 by omega), hlead, Nat.add_comm 0xE0,
          Nat.add_comm 0x80, Nat.add_comm 0x80]
      · have hlead : n / 262144 % 8 = n / 262144 := by omega
        rw [if_neg (Nat.not_lt.2 h₃), if_neg (show ¬ n ≤ 65535 by omega), hlead, Nat.add_comm 0xF0,
          Nat.add_comm 0x80, Nat.add_comm 0x80, Nat.add_comm 0x80]

theorem encode?_ofChar (c : Char) : encode? (ofChar c) = some (String.utf8EncodeChar c) := by
  rw [encode?, toInt_ofChar, if_pos (isScalar_toNat c), Int.toNat_natCast, bytes_toNat]

theorem encode?_eq_some_iff {n : Int64} {t : Text} :
    encode? n = some t ↔ ∃ c : Char, n = ofChar c ∧ t = String.utf8EncodeChar c := by
  constructor
  · intro h
    obtain ⟨hscalar, -⟩ := Option.ite_none_right_eq_some.1 h
    have hchar := ofChar_ofNat hscalar
    rw [← hchar, encode?_ofChar, Option.some.injEq] at h
    exact ⟨_, hchar.symm, h.symm⟩
  · rintro ⟨c, rfl, rfl⟩
    exact encode?_ofChar c

/-! ## Shortest forms -/

/-- Whether a byte goes on with a character. -/
def IsTail (b : UInt8) : Prop := 0x80 ≤ b ∧ b ≤ 0xBF

/-- The bytes of one character.  What fewer bytes could spell, surrogates and numbers
that are too large are kept out by the bounds on the first two. -/
inductive Sequence : Text → Prop where
  | one {a : UInt8} (ha : a ≤ 0x7F) : Sequence [a]
  | two {a b : UInt8} (ha : 0xC2 ≤ a ∧ a ≤ 0xDF) (hb : IsTail b) : Sequence [a, b]
  | three {a b c : UInt8} (ha : 0xE0 ≤ a ∧ a ≤ 0xEF) (hb : IsTail b) (hc : IsTail c)
    (hshort : a = 0xE0 → 0xA0 ≤ b) (hsurrogate : a = 0xED → b ≤ 0x9F) : Sequence [a, b, c]
  | four {a b c d : UInt8} (ha : 0xF0 ≤ a ∧ a ≤ 0xF4) (hb : IsTail b) (hc : IsTail c)
    (hd : IsTail d) (hshort : a = 0xF0 → 0x90 ≤ b) (hmost : a = 0xF4 → b ≤ 0x8F) :
    Sequence [a, b, c, d]

/-- Characters one behind the other, each in its shortest form. -/
inductive WellFormed : Text → Prop where
  | nil : WellFormed []
  | cons {s t : Text} (hs : Sequence s) (ht : WellFormed t) : WellFormed (s ++ t)

theorem toNat_continuation (n : Nat) : (continuation n).toNat = 0x80 + n % 64 :=
  UInt8.toNat_ofNat_of_lt' (show 0x80 + n % 64 < 256 by omega)

theorem isTail_continuation (n : Nat) : IsTail (continuation n) := by
  simp only [IsTail, UInt8.le_iff_toNat_le, toNat_continuation, UInt8.reduceToNat]
  omega

/-- The first byte tells how large a number is up to the bits of the others. -/
theorem sequence_bytes {n : Nat} (h : IsScalar n) : Sequence (bytes n) := by
  obtain ⟨-, hmost, hsurrogate⟩ := h
  have hlead {m : Nat} (hm : m < 256) : (UInt8.ofNat m).toNat = m := UInt8.toNat_ofNat_of_lt' hm
  rw [bytes]
  split
  · next h₁ =>
    refine .one ?_
    rw [UInt8.le_iff_toNat_le, hlead (by omega)]
    exact Nat.le_of_lt_succ h₁
  · next h₁ =>
    split
    · next h₂ =>
      refine .two ?_ (isTail_continuation n)
      simp only [UInt8.le_iff_toNat_le, hlead (show 0xC0 + n / 64 < 256 by omega),
        UInt8.reduceToNat]
      omega
    · next h₂ =>
      split
      · next h₃ =>
        refine .three ?_ (isTail_continuation _) (isTail_continuation n) ?_ ?_
        all_goals simp only [UInt8.le_iff_toNat_le, ← UInt8.toNat_inj, toNat_continuation,
          hlead (show 0xE0 + n / 4096 < 256 by omega), UInt8.reduceToNat]
        all_goals omega
      · next h₃ =>
        refine .four ?_ (isTail_continuation _) (isTail_continuation _) (isTail_continuation n)
          ?_ ?_
        all_goals simp only [UInt8.le_iff_toNat_le, ← UInt8.toNat_inj, toNat_continuation,
          hlead (show 0xF0 + n / 262144 < 256 by omega), UInt8.reduceToNat]
        all_goals omega

/-! ## Several characters -/

/-- The bytes of several characters, if all the numbers stand for one. -/
def encodeAll? (ns : List Int64) : Option Text := (ns.mapM encode?).map List.flatten

/-- The numbers of the characters that some bytes spell, if they are UTF-8. -/
def decodeAll? (t : Text) : Option (List Int64) :=
  t.toByteArray.utf8Decode?.map fun cs => cs.toList.map ofChar

theorem encodeAll?_nil : encodeAll? [] = some [] := rfl

theorem encodeAll?_cons (n : Int64) (ns : List Int64) :
    encodeAll? (n :: ns) = (encode? n).bind fun s => (encodeAll? ns).map fun t => s ++ t := by
  rw [encodeAll?, encodeAll?, List.mapM_cons]
  cases encode? n <;> cases ns.mapM encode? <;> rfl

/-- What is encoded are the numbers of the characters of a text. -/
theorem encodeAll?_eq_some_iff {ns : List Int64} {t : Text} :
    encodeAll? ns = some t ↔
      ∃ cs : List Char, ns = cs.map ofChar ∧ t = cs.flatMap String.utf8EncodeChar := by
  induction ns generalizing t with
  | nil => simp [encodeAll?_nil, eq_comm]
  | cons n ns ih =>
    simp only [encodeAll?_cons, Option.bind_eq_some_iff, Option.map_eq_some_iff,
      encode?_eq_some_iff, ih]
    constructor
    · rintro ⟨s, ⟨c, rfl, rfl⟩, t, ⟨cs, rfl, rfl⟩, rfl⟩
      exact ⟨c :: cs, rfl, rfl⟩
    · rintro ⟨cs, hcs, rfl⟩
      obtain ⟨c, cs, rfl, rfl, rfl⟩ := List.map_eq_cons_iff.1 hcs.symm
      exact ⟨_, ⟨c, rfl, rfl⟩, _, ⟨cs, rfl, rfl⟩, rfl⟩

/-- Scalars are encoded, each in its shortest form. -/
theorem exists_encodeAll? {ns : List Int64} (h : ∀ n ∈ ns, IsScalar n.toInt) :
    ∃ t, encodeAll? ns = some t ∧ WellFormed t := by
  induction ns with
  | nil => exact ⟨[], encodeAll?_nil, .nil⟩
  | cons n ns ih =>
    rw [List.forall_mem_cons] at h
    obtain ⟨t, ht, hformed⟩ := ih h.2
    have hscalar : IsScalar (n.toInt.toNat : Nat) := by
      rw [Int.toNat_of_nonneg h.1.1]
      exact h.1
    refine ⟨bytes n.toInt.toNat ++ t, ?_, .cons (sequence_bytes hscalar) hformed⟩
    rw [encodeAll?_cons, encode?, if_pos h.1, ht]
    rfl

theorem decodeAll?_of_encodeAll? {ns : List Int64} {t : Text} (h : encodeAll? ns = some t) :
    decodeAll? t = some ns := by
  obtain ⟨cs, rfl, rfl⟩ := encodeAll?_eq_some_iff.1 h
  have hdecode : (cs.flatMap String.utf8EncodeChar).toByteArray.utf8Decode? = some cs.toArray :=
    List.utf8Decode?_utf8Encode
  rw [decodeAll?, hdecode, Option.map_some]

end CodePoint

/-- A number is encoded exactly if it is up to 10FFFF and no surrogate.  What
several such numbers are encoded as is UTF-8 in its shortest form, from which the
same numbers are decoded, so no other numbers have this encoding. -/
theorem encodings_decode :
    (∀ n : Int64, (CodePoint.encode? n).isSome ↔
      0 ≤ n.toInt ∧ n.toInt ≤ 0x10FFFF ∧ ¬ (0xD800 ≤ n.toInt ∧ n.toInt ≤ 0xDFFF)) ∧
    (∀ ns : List Int64, (∀ n ∈ ns, CodePoint.IsScalar n.toInt) →
      ∃ t, CodePoint.encodeAll? ns = some t ∧ CodePoint.WellFormed t ∧
        CodePoint.decodeAll? t = some ns) ∧
    ∀ (ns ms : List Int64) (t : Text), CodePoint.encodeAll? ns = some t →
      CodePoint.encodeAll? ms = some t → ns = ms := by
  have hscalar (n : Int64) : (CodePoint.encode? n).isSome ↔ CodePoint.IsScalar n.toInt := by
    rw [CodePoint.encode?, Option.isSome_ite]
  refine ⟨hscalar, fun ns hns => ?_, fun ns ms t hns hms => ?_⟩
  · obtain ⟨t, ht, hformed⟩ := CodePoint.exists_encodeAll? hns
    exact ⟨t, ht, hformed, CodePoint.decodeAll?_of_encodeAll? ht⟩
  · have hdecoded := CodePoint.decodeAll?_of_encodeAll? hns
    rw [CodePoint.decodeAll?_of_encodeAll? hms, Option.some.injEq] at hdecoded
    exact hdecoded.symm

/-- The last numbers of each length and those next to the surrogates. -/
theorem encodings_decode_bounds :
    let ns : List Int64 := [0x7F, 0x80, 0x7FF, 0x800, 0xD7FF, 0xE000, 0xFFFF, 0x10000, 0x10FFFF]
    (∀ n ∈ ns, CodePoint.IsScalar n.toInt) ∧
      ∃ t, CodePoint.encodeAll? ns = some t ∧ CodePoint.decodeAll? t = some ns ∧
        ∀ ms, CodePoint.encodeAll? ms = some t → ms = ns := by
  intro ns
  have hall : ns.all fun n => CodePoint.IsScalar n.toInt := by decide
  have hns : ∀ n ∈ ns, CodePoint.IsScalar n.toInt := fun n hn =>
    of_decide_eq_true (List.all_eq_true.1 hall n hn)
  obtain ⟨-, hdecodes, hunique⟩ := encodings_decode
  obtain ⟨t, ht, -, hback⟩ := hdecodes ns hns
  exact ⟨hns, t, ht, hback, fun ms hms => hunique ms ns t hms ht⟩

end Cookbook
