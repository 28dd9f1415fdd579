import EpochCipher.Shuffle

/-!
This module contains the rotation sets of the linear mix: which amounts may stand together, and how
a set of them is drawn.
-/

namespace EpochCipher

abbrev RotationSet := Vector UInt32 rotationCount

namespace RotationSet

def areDistinct : List UInt32 → Bool
  | [] => true
  | r :: rs => !rs.contains r && areDistinct rs

def sum (amounts : List UInt32) : UInt32 :=
  amounts.foldl (· + ·) 0

def isValid (amounts : List UInt32) : Bool :=
  amounts.all (fun r => 1 ≤ r && r < 64) && areDistinct amounts && sum amounts % 2 == 1

def candidates : Vector UInt32 63 :=
  Vector.ofFn fun i => UInt32.ofNat (i + 1)

/--
Choose the first five candidates and, as the sixth amount, the first later one that makes the sum
odd. Were there none, the next candidate would stand in for it.
-/
def pick (candidates : Vector UInt32 63) : RotationSet :=
  let firsts := candidates.toList.take 5
  let last := (candidates.toList.drop 5).find? fun r => (r + sum firsts) % 2 == 1
  #v[candidates[0], candidates[1], candidates[2], candidates[3], candidates[4],
    last.getD candidates[5]]

def draw : Draw RotationSet :=
  return pick (← shuffle candidates)

end RotationSet

end EpochCipher
