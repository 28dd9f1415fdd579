import EpochCipher.Generator
import EpochCipher.State

/-!
This module contains the bit networks: layers of masked swaps, word moves and rotations, which
together move every bit of the state to another place.
-/

namespace EpochCipher

/-- A network: six rows of swap masks, and a row of rotations after each of the first five. -/
structure Network where
  masks : Vector (Vector UInt64 wordPairs) subroundCount
  rotations : Vector (Vector UInt32 wordPairs) (subroundCount - 1)
  deriving DecidableEq

namespace Network

open State

def draw : Draw Network := do
  let masks ← Vector.ofFnM fun _ => Vector.ofFnM fun _ => Draw.word
  let rotations ← Vector.ofFnM fun _ => Vector.ofFnM fun _ => return (← Draw.bounded 63) + 1
  return { masks, rotations }

def layer (mask : Vector UInt64 5) (rotation : Vector UInt32 5) (x : State) : State :=
  rotateEven rotation (wordShuffle wordStride (maskedSwap mask x))

def unlayer (mask : Vector UInt64 5) (rotation : Vector UInt32 5) (x : State) : State :=
  maskedSwap mask (wordShuffle wordUnstride (unrotateEven rotation x))

def apply (n : Network) (x : State) : State :=
  maskedSwap n.masks[5] (Fin.foldl 5 (fun x i => layer n.masks[i.val] (n.rotations.get i) x) x)

def unapply (n : Network) (x : State) : State :=
  Fin.foldr 5 (fun i x => unlayer n.masks[i.val] (n.rotations.get i) x) (maskedSwap n.masks[5] x)

end Network

end EpochCipher
