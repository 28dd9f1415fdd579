import EpochCipher.RotationRing
import EpochCipher.State

/-!
This module contains the linear mix and its inverse. The mix adds to every word's successor the sum
of the word's rotations. Read in the ring of rotations, it is `y i = x (i + 1) + r * x i`, with the
words arranged in a circle.
-/

namespace EpochCipher

/-- A turn around the circle of words leaves a factor that is no unit: the mix cannot be undone. -/
structure SingularMix where
  deriving DecidableEq

namespace SingularMix

def message (_ : SingularMix) : String :=
  "internal error: entered unreachable code: "
    ++ "rotation set with an even term count always yields a unit"

end SingularMix

namespace State

open RotationRing

def linearMix (rotations : Vector UInt32 6) (x : State) : State :=
  x.mapFinIdx fun i word _ =>
    rotations.foldl (fun sum r => sum ^^^ Word.rotl word r.toNat) x[(i + 1) % 10]

@[simp]
theorem getElem_linearMix (rotations : Vector UInt32 6) (x : State) (i : Nat) (h : i < 10) :
    (linearMix rotations x)[i]
      =
    rotations.foldl (fun sum r => sum ^^^ Word.rotl x[i] r.toNat) x[(i + 1) % 10] := by
  simp [linearMix]

/--
The factor that one turn around the circle leaves on the first word: if `linearMix` takes `x` to
`y`, then `circle r * x 0 = around r y`.
-/
def circle (r : UInt64) : UInt64 :=
  1 ^^^ pow r 10

def around (r : UInt64) (y : State) : UInt64 :=
  y.foldl (fun offset word => word ^^^ mul r offset) 0

def unroll (r first : UInt64) (y : State) : State :=
  Fin.foldl 9 (fun x i => x.set (i + 1) (y[i.val] ^^^ mul r x[i.val])) (Vector.replicate 10 first)

/--
The inverse of `linearMix`. The polynomial `r` has an even number of terms, so that `circle r` has
an odd number and can be inverted.
-/
def linearUnmix (rotations : Vector UInt32 6) (y : State) : Except SingularMix State :=
  let r := ofAmounts rotations.toList
  match inverse? (circle r) with
  | some solver => .ok (unroll r (mul solver (around r y)) y)
  | none => .error {}

end State

end EpochCipher
