import Cookbook.CodePoint
import Cookbook.Kitchen.Frame

/-!
# Cookbook.Kitchen.Serving

Serving dishes: the first ones in the order of their numbers, with a line feed
between two of them, each from top to bottom.  What is served leaves its dish.
A dish that is not there serves nothing.
-/

namespace Cookbook

/-- How a value is served: a liquid one as the character with its number, any
other as the number. -/
def Value.serving? (v : Value) : Option Text :=
  if v.liquid then CodePoint.encode? v.number else some (Decimal.ofInt64 v.number)

/-- What serving leaves: the dishes, everything written so far, and the number
that stands for no character, if one was met. -/
structure Served where
  dishes : Shelf UInt32 Stack
  written : Array UInt8
  refused : Option Int64 := none
deriving DecidableEq

namespace Served

/-- Serves values one by one, adding to what is written, until one stands for
no character; that one is gone as well. -/
def values (written : Array UInt8) : List Value → Array UInt8 × List Value × Option Int64
  | [] => (written, [], none)
  | v :: rest =>
    match v.serving? with
    | some text => values (written ++ text) rest
    | none => (written, rest, some v.number)

/-- Serves the dishes with `count` numbers from `n` on. -/
def dishesFrom (dishes : Shelf UInt32 Stack) (written : Array UInt8) :
    (count : Nat) → (n : Nat) → Served
  | 0, _ => { dishes, written }
  | count + 1, n =>
    let written' := if n > 1 then written.push Text.lineFeed else written
    match dishes.get? (UInt32.ofNat n) with
    | none => dishesFrom dishes written' count (n + 1)
    | some dish =>
      let (written'', left, refused) := values written' dish.items
      let dishes' := dishes.insert (UInt32.ofNat n) { items := left }
      match refused with
      | some c => { dishes := dishes', written := written'', refused := some c }
      | none => dishesFrom dishes' written'' count (n + 1)

/-- Serves the first `count` dishes; there are no more dishes than 32-bit
numbers. -/
def firstDishes (dishes : Shelf UInt32 Stack) (written : Array UInt8) (count : Int64) : Served :=
  dishesFrom dishes written (min count.toInt.toNat (UInt32.size - 1)) 1

end Served

end Cookbook
