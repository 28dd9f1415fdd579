import EpochCipher.Generator

/-!
This module contains the shuffle: the positions that it draws, the scheme of swaps that it runs on
them, and the two put together.
-/

namespace EpochCipher

/-- A collection with more elements than a 32-bit draw can point into. -/
structure Oversized where
  size : Nat
  deriving DecidableEq

namespace Oversized

def message (o : Oversized) : String :=
  "cannot shuffle " ++ toString o.size ++ " elements with 32-bit draws"

end Oversized

namespace Shuffle

/--
Swap, for `i` from 1 upwards, the elements at `i` and at the `i`-th of the given positions.
-/
def swapAll (xs : Vector α n) (positions : List Nat) : Vector α n :=
  go 1 xs positions
where
  go (i : Nat) (xs : Vector α n) : List Nat → Vector α n
    | [] => xs
    | j :: js => go (i + 1) (xs.swapIfInBounds i j) js

/--
The positions that a shuffle of `n` elements swaps with: one draw from `[0, i]` for every `i` from 1
up to `n - 1`.
-/
def positions (n : Nat) : Draw (Vector Nat (n - 1)) :=
  Vector.ofFnM fun i => return (← Draw.bounded (UInt32.ofNat (i + 2))).toNat

def positions? (n : Nat) : Draw (Except Oversized (List Nat)) :=
  if n < UInt32.size then
    return .ok (← positions n).toList
  else
    return .error { size := n }

end Shuffle

def shuffle (xs : Vector α n) : Draw (Vector α n) :=
  return Shuffle.swapAll xs (← Shuffle.positions n).toList

/-- Shuffle an array of any size. One that is too large is refused before the first draw. -/
def shuffle? (xs : Array α) : Draw (Except Oversized (Array α)) :=
  return (← Shuffle.positions? xs.size).map fun ps => (Shuffle.swapAll xs.toVector ps).toArray

end EpochCipher
