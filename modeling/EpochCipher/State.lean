import EpochCipher.Word
import EpochCipher.Dimensions

/-!
This module contains the state of the cipher and the layers that act on it without any table. The
two larger layers have modules of their own: `EpochCipher.Network` and `EpochCipher.LinearMix`.

Words are added bit by bit, modulo two: a sum of words is their exclusive or.
-/

namespace EpochCipher

abbrev State := Vector UInt64 10

namespace State

def total (x : State) : UInt64 :=
  x.foldl (· ^^^ ·) 0

/--
Spread every word into all others: fold the high half of the sum of the words onto its low half and
add the result to every word. The words are even in number, so that their sum stays as it was and a
second run undoes the first.
-/
def preMix (x : State) : State :=
  let spread := x.total ^^^ x.total >>> 32
  x.map (· ^^^ spread)

/-- Swap the bits selected by `mask[i]` between the words `2 * i` and `2 * i + 1`. -/
def maskedSwap (mask : Vector UInt64 5) (x : State) : State :=
  x.mapFinIdx fun i word _ =>
    word ^^^ (mask[i / 2] &&& (x[2 * (i / 2)] ^^^ x[2 * (i / 2) + 1]))

/--
Move word `i` to position `m * i` modulo the number of words. Where `m` is not coprime to that
number, positions that no word moves to are zero, and of several words the last one stays.
-/
def wordShuffle (m : Nat) (x : State) : State :=
  Fin.foldl 10 (fun next i => next.set (m * i % 10) x[i] (Nat.mod_lt _ (by decide)))
    (Vector.replicate 10 0)

def rotateEven (amounts : Vector UInt32 5) (x : State) : State :=
  x.mapFinIdx fun i word _ => if i % 2 = 0 then Word.rotl word amounts[i / 2].toNat else word

def unrotateEven (amounts : Vector UInt32 5) (x : State) : State :=
  x.mapFinIdx fun i word _ => if i % 2 = 0 then Word.rotr word amounts[i / 2].toNat else word

def injectKey (key : UInt16) (x : State) : State :=
  x.mapIdx fun i word => word ^^^ (key.toBitVec.getLsbD i).toUInt64

@[simp]
theorem getElem_preMix (x : State) (i : Nat) (h : i < 10) :
    x.preMix[i] = x[i] ^^^ (x.total ^^^ x.total >>> 32) := by
  simp [preMix]

@[simp]
theorem getElem_maskedSwap (mask : Vector UInt64 5) (x : State) (i : Nat) (h : i < 10) :
    (maskedSwap mask x)[i]
      =
    x[i] ^^^ (mask[i / 2] &&& (x[2 * (i / 2)] ^^^ x[2 * (i / 2) + 1])) := by
  simp [maskedSwap]

@[simp]
theorem getElem_rotateEven (amounts : Vector UInt32 5) (x : State) (i : Nat) (h : i < 10) :
    (rotateEven amounts x)[i]
      =
    if i % 2 = 0 then Word.rotl x[i] amounts[i / 2].toNat else x[i] := by
  simp [rotateEven]

@[simp]
theorem getElem_unrotateEven (amounts : Vector UInt32 5) (x : State) (i : Nat) (h : i < 10) :
    (unrotateEven amounts x)[i]
      =
    if i % 2 = 0 then Word.rotr x[i] amounts[i / 2].toNat else x[i] := by
  simp [unrotateEven]

@[simp]
theorem getElem_injectKey (key : UInt16) (x : State) (i : Nat) (h : i < 10) :
    (injectKey key x)[i] = x[i] ^^^ (key.toBitVec.getLsbD i).toUInt64 := by
  simp [injectKey]

end State

end EpochCipher
