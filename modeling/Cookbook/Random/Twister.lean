/-!
# Cookbook.Random.Twister

The 32-bit Mersenne Twister.  Its words satisfy a linear recurrence over the
last 624 of them; what it hands out is each new word, tempered.
-/

namespace Cookbook

/-- The last 624 words of the recurrence, in a ring, and the place of the
oldest. -/
structure Twister where
  ring : Vector UInt32 624
  oldest : Fin 624 := 0
deriving DecidableEq

namespace Twister

/-- The words that a seed starts the recurrence with. -/
def seedWords : Nat → UInt32 → List UInt32
  | 0, _ => []
  | count + 1, word =>
    let mixed := (1812433253 : UInt32) * (word ^^^ (word >>> 30))
    word :: seedWords count (mixed + UInt32.ofNat (624 - count))

theorem length_seedWords (count : Nat) (word : UInt32) : (seedWords count word).length = count := by
  induction count generalizing word with
  | zero => rfl
  | succ count ih => simp [seedWords, ih]

/-- The generator that a seed starts. -/
def ofSeed (seed : UInt32) : Twister where
  ring := ⟨(seedWords 624 seed).toArray, by simp [length_seedWords]⟩

/-- The word that follows in the recurrence: the top bit of one word and the
rest of the next are shifted, and combined with a third. -/
def recur (first second distant : UInt32) : UInt32 :=
  let mixed := (first &&& 0x80000000) ||| (second &&& 0x7FFFFFFF)
  let twist : UInt32 := if mixed &&& 1 = 1 then 0x9908B0DF else 0
  distant ^^^ (mixed >>> 1) ^^^ twist

/-- Evens out the bits of a word. -/
def temper (word : UInt32) : UInt32 :=
  let a := word ^^^ (word >>> 11)
  let b := a ^^^ ((a <<< 7) &&& 0x9D2C5680)
  let c := b ^^^ ((b <<< 15) &&& 0xEFC60000)
  c ^^^ (c >>> 18)

/-- The next random word. -/
def next (g : Twister) : UInt32 × Twister :=
  let i := g.oldest
  let word := recur g.ring[i] g.ring[i + 1] g.ring[i + 397]
  (temper word, { ring := g.ring.set i word, oldest := i + 1 })

end Twister

end Cookbook
