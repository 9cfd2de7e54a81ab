import Cookbook.Random.Twister

/-!
# Cookbook.Random.Shuffle

Shuffling by exchanges with randomly chosen earlier places.

A number below `n` is the upper half of the product of a random word with `n`;
words whose lower half would favour some numbers are drawn again.  Where one word
cannot reach every number below `n`, the upper half of the number is drawn first and
a word is taken for the lower one, until the number is below `n`.  How often is
bounded by fuel, and `none` says that it ran out.  When two places fit into one
word they are chosen together.
-/

namespace Cookbook

namespace Twister

/-- A random number below `n`, from one word. -/
def wordBelow (n : Nat) : Nat → Twister → Option (Nat × Twister)
  | 0, _ => none
  | fuel + 1, g =>
    let (word, g') := g.next
    let product := word.toNat * n
    if product % UInt32.size < (UInt32.size - n) % n then wordBelow n fuel g'
    else some (product / UInt32.size, g')

/-- A random number below `n`, from a drawn upper half and a word as the lower one. -/
def wideBelow (n : Nat) : Nat → Twister → Option (Nat × Twister)
  | 0, _ => none
  | fuel + 1, g =>
    match wordBelow ((n - 1) / UInt32.size + 1) fuel g with
    | none => none
    | some (upper, g') =>
      let (lower, g'') := g'.next
      let number := UInt32.size * upper + lower.toNat
      if number < n then some (number, g'') else wideBelow n fuel g''

/-- A random number below `n`. -/
def below (n fuel : Nat) (g : Twister) : Option (Nat × Twister) :=
  if n ≤ UInt32.size then wordBelow n fuel g else wideBelow n fuel g

/-- Exchanges the item at each of `count` places from `i` on with one that is
not behind it. -/
def exchangeEach (fuel : Nat) : Nat → Nat → Array α → Twister → Option (Array α × Twister)
  | 0, _, items, g => some (items, g)
  | count + 1, i, items, g =>
    match below (i + 1) fuel g with
    | none => none
    | some (j, g') => exchangeEach fuel count (i + 1) (items.swapIfInBounds i j) g'

/-- Does the same for `count` pairs of places, drawing one number for a pair. -/
def exchangePairs (fuel : Nat) : Nat → Nat → Array α → Twister → Option (Array α × Twister)
  | 0, _, items, g => some (items, g)
  | count + 1, i, items, g =>
    match below ((i + 1) * (i + 2)) fuel g with
    | none => none
    | some (j, g') =>
      let items' := (items.swapIfInBounds i (j / (i + 2))).swapIfInBounds (i + 1) (j % (i + 2))
      exchangePairs fuel count (i + 2) items' g'

/-- Shuffles some items.  Places are paired if the square of their number is a
32-bit number; an even number of items leaves the second without a partner. -/
def shuffle (fuel : Nat) (items : Array α) (g : Twister) : Option (Array α × Twister) :=
  let n := items.size
  if n < 2 then some (items, g)
  else if n * n < UInt32.size then
    if n % 2 = 0 then
      match exchangeEach fuel 1 1 items g with
      | none => none
      | some (items', g') => exchangePairs fuel ((n - 2) / 2) 2 items' g'
    else exchangePairs fuel ((n - 1) / 2) 1 items g
  else exchangeEach fuel (n - 1) 1 items g

end Twister

end Cookbook
