import Cookbook.Proofs.CommandLine.Arguments
import Cookbook.Proofs.Text.Signed

/-!
# Cookbook.Proofs.CommandLine.Numerals

The numbers that options accept (`numbers_accepted`).  Which number a text denotes
is one thing (`Options.Denotes`); what is noted down is its remainder modulo 2^64, if
that has 32 bits (`Options.number?_eq_some_iff`).  A minus sign is looked for at the
very start of a text only, so behind white space a negative number is accepted if its
remainder is small enough (`negative_seed_accepted`).
-/

namespace Cookbook

namespace Options

/-! ## Reading numbers -/

variable {w : Text} {z z' : Int} {n : UInt32}

/-- Whether a text is white space and a number behind it. -/
def Denotes (w : Text) (z : Int) : Prop :=
  ∃ blank numeral, w = blank ++ numeral ∧ (∀ b ∈ blank, Decimal.isSpace b) ∧
    Decimal.Signed numeral z

/-- Whether a text stands for a number where an option asks for one: it denotes the
number, or a negative one that leaves it modulo 2^64, and is not written with the minus
sign in front. -/
def StandsFor (w : Text) (n : UInt32) : Prop :=
  w.head? ≠ some 45 ∧ (Denotes w n.toNat ∨ n ≠ 0 ∧ Denotes w (n.toNat - UInt64.size))

theorem denotes_iff : Denotes w z ↔ Decimal.Signed (w.dropWhile Decimal.isSpace) z := by
  constructor
  · rintro ⟨blank, numeral, rfl, hblank, hnumeral⟩
    obtain ⟨⟨b, hb, hspace⟩, -⟩ := hnumeral.exists_split
    obtain ⟨rest, rfl⟩ := List.head?_eq_some_iff.1 hb
    rwa [List.dropWhile_append_of_pos hblank, List.dropWhile_cons_of_neg hspace]
  · intro h
    exact ⟨w.takeWhile Decimal.isSpace, w.dropWhile Decimal.isSpace,
      List.takeWhile_append_dropWhile.symm, List.all_eq_true.1 List.all_takeWhile, h⟩

/-- A text denotes one number at most. -/
theorem Denotes.unique (h : Denotes w z) (h' : Denotes w z') : z = z' :=
  (denotes_iff.1 h).unique (denotes_iff.1 h')

theorem ofNat_eq_iff {k : Nat} : k < UInt32.size ∧ UInt32.ofNat k = n ↔ k = n.toNat := by
  constructor
  · rintro ⟨hlt, rfl⟩
    exact (UInt32.toNat_ofNat_of_lt hlt).symm
  · rintro rfl
    exact ⟨n.toNat_lt, UInt32.ofNat_toNat⟩

theorem number?_eq_some_iff : number? w = some n ↔ StandsFor w n := by
  by_cases hfront : w.head? = some 45
  · simp [number?, StandsFor, hfront]
  rw [number?, if_neg hfront, StandsFor, denotes_iff, denotes_iff, Decimal.signed_iff,
    Decimal.signed_iff]
  have hzero : n ≠ 0 ↔ n.toNat ≠ 0 := by rw [ne_eq, ← UInt32.toNat_inj, UInt32.toNat_zero]
  have hlt : n.toNat < 4294967296 := n.toNat_lt
  generalize Decimal.splitSign (w.dropWhile Decimal.isSpace) = parts
  obtain ⟨negative, digits⟩ := parts
  cases hnat : Decimal.nat? digits with
  | none =>
    have hbad : ¬(digits ≠ [] ∧ ∀ b ∈ digits, Text.isDigit b) := fun h => by
      simp [Decimal.nat?_eq_some_iff.2 ⟨h.1, h.2, rfl⟩] at hnat
    simp only [hnat, reduceCtorEq, false_iff]
    rintro ⟨-, ⟨hne, hdigits, -⟩ | ⟨-, hne, hdigits, -⟩⟩ <;> exact hbad ⟨hne, hdigits⟩
  | some magnitude =>
    obtain ⟨hne, hdigits, hvalue⟩ := Decimal.nat?_eq_some_iff.1 hnat
    simp only [hnat, hvalue, Option.ite_none_right_eq_some, Option.some.injEq, and_assoc,
      ofNat_eq_iff, hzero, iff_true_intro hfront, iff_true_intro hne, iff_true_intro hdigits,
      true_and, UInt64.size]
    cases negative <;> simp only [if_true, Bool.false_eq_true, if_false] <;> omega

end Options

/-! ## Numeric options -/

/-- The options that take a number. -/
inductive NumericOption where
  | seed
  | maxDepth
deriving DecidableEq

namespace NumericOption

variable (option : NumericOption)

def valueOption : NumericOption → ValueOption
  | seed => .seed
  | maxDepth => .maxDepth

/-- How an option is written. -/
def name : Text := option.valueOption.name

/-- Notes down the number for an option. -/
def store (o : Options) (n : UInt32) : NumericOption → Options
  | seed => { o with seed := some n }
  | maxDepth => { o with maxDepth := n }

theorem note_valued (o : Options) (w : Text) :
    Argument.note o (.valued option.valueOption w) =
      (Options.number option.name w).map (option.store o) := by
  cases option with
  | seed => exact Argument.note_valued_seed o w
  | maxDepth => exact Argument.note_valued_maxDepth o w

/-- Whatever else is noted down, the number can be told. -/
theorem store_inj {o : Options} {n n' : UInt32}
    (h : { option.store o n with help := true } = { option.store o n' with help := true }) :
    n = n' := by
  cases option with
  | seed => exact Option.some.inj (congrArg Options.seed h)
  | maxDepth => exact congrArg Options.maxDepth h

end NumericOption

namespace Options

/-- What a command line asks for whose last arguments are still to be noted down. -/
def parseFrom (o : Options) (rest : List Text) : Except OptionError Options :=
  match o.withArguments rest with
  | .error e => .error e
  | .ok o' => if o'.recipePath.isEmpty && !o'.help then .error .noRecipe else .ok o'

variable {args : List Text} {o : Options}

theorem parse_behind (h : ({} : Options).withArguments args = .ok o) (rest : List Text) :
    parse (args ++ rest) = o.parseFrom rest := by
  rw [parse, withArguments_append h]
  rfl

theorem parseFrom_help (o : Options) : o.parseFrom ["--help"] = .ok { o with help := true } := by
  have hgroup : Argument.group ["--help"] = [.help] := by decide +kernel
  rw [parseFrom, Argument.withArguments_eq, hgroup]
  exact if_neg (by simp)

/-- A number is noted down and what is behind it is read on, anything else is refused. -/
theorem parse_numeric (h : ({} : Options).withArguments args = .ok o) (option : NumericOption)
    (w : Text) (rest : List Text) : parse (args ++ option.name :: w :: rest) =
      match number? w with
      | some n => (option.store o n).parseFrom rest
      | none => .error (.notANumber option.name w) := by
  rw [parse_behind h, parseFrom, Argument.withArguments_eq, NumericOption.name,
    Argument.group_valued, List.foldlM_cons, option.note_valued, number, NumericOption.name]
  cases number? w with
  | none => rfl
  | some n =>
    simp only [parseFrom, Argument.withArguments_eq]
    rfl

/-- What stands behind a numeric option is accepted as a number exactly if it stands for
it, and refused if it stands for none.  Unless it is a negative number above -2^64 and below
2^32 - 2^64, it stands for the number that it denotes as a numeral that does not begin with
the minus sign. -/
theorem numbers_accepted (hargs : ({} : Options).withArguments args = .ok o)
    (option : NumericOption) (w : Text) :
    (∀ n, (∀ rest, parse (args ++ option.name :: w :: rest) =
        (option.store o n).parseFrom rest) ↔ StandsFor w n) ∧
    ((∀ rest, parse (args ++ option.name :: w :: rest) =
        .error (.notANumber option.name w)) ↔ ∀ n, ¬StandsFor w n) ∧
    ((∀ z, Denotes w z → z ≤ -UInt64.size ∨ (UInt32.size : Int) - UInt64.size ≤ z) →
      ∀ n, StandsFor w n ↔ w.head? ≠ some 45 ∧ Denotes w n.toNat) := by
  refine ⟨fun n => ?_, ?_, fun hrange n => and_congr_right fun _ => ?_⟩
  · rw [← number?_eq_some_iff]
    constructor
    · intro haccepted
      have hhelp := haccepted ["--help"]
      rw [parse_numeric hargs, parseFrom_help] at hhelp
      cases hn : number? w with
      | none => simp [hn] at hhelp
      | some n' =>
        simp only [hn, parseFrom_help, Except.ok.injEq] at hhelp
        rw [option.store_inj hhelp]
    · intro hn rest
      rw [parse_numeric hargs, hn]
  · simp only [← number?_eq_some_iff, ← Option.eq_none_iff_forall_ne_some]
    constructor
    · intro hrefused
      have hhelp := hrefused ["--help"]
      rw [parse_numeric hargs] at hhelp
      cases hn : number? w with
      | none => rfl
      | some n => simp [hn, parseFrom_help] at hhelp
    · intro hn rest
      rw [parse_numeric hargs, hn]
  · have hlt : n.toNat < UInt32.size := n.toNat_lt
    have hpos : n ≠ 0 → n.toNat ≠ 0 := mt fun h => UInt32.toNat_inj.1 h
    refine or_iff_left fun hwrapped => ?_
    have hvalue := hrange _ hwrapped.2
    have hne := hpos hwrapped.1
    omega

/-- White space, a plus sign and zeros in front of a number make no difference. -/
theorem numbers_accepted_padded :
    ({} : Options).withArguments ["--dump"] = .ok { dump := true } ∧
      parse ["--dump", "--seed", " +007", "roast"] =
        .ok { recipePath := "roast", dump := true, seed := some 7 } := by
  have hargs : ({} : Options).withArguments ["--dump"] = .ok { dump := true } := rfl
  have hdenoted : Denotes " +007" 7 :=
    denotes_iff.2 (.plus (by decide) (by decide +kernel))
  have hrange (z : Int) (hz : Denotes " +007" z) :
      z ≤ -UInt64.size ∨ (UInt32.size : Int) - UInt64.size ≤ z := by
    rw [hz.unique hdenoted]
    decide
  obtain ⟨haccepted, -, hdenotes⟩ := numbers_accepted hargs .seed " +007"
  have hseven : StandsFor " +007" 7 := (hdenotes hrange 7).2 ⟨by decide +kernel, hdenoted⟩
  exact ⟨hargs, ((haccepted 7).2 hseven ["roast"]).trans rfl⟩

/-- Behind white space a negative number is accepted as its remainder modulo 2^64. -/
theorem negative_seed_accepted :
    Denotes " -18446744073709551615" (-18446744073709551615) ∧
      parse ["--seed", " -18446744073709551615", "roast"] =
        .ok { recipePath := "roast", seed := some 1 } :=
  ⟨denotes_iff.2 (.minus (by decide) (by decide +kernel)), rfl⟩

end Options

end Cookbook
