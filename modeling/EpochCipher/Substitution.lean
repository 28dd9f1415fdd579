import EpochCipher.Shuffle
import EpochCipher.State
import EpochCipher.Table

/-!
This module contains the substitution layer. From the lowest bit up, a word holds four pairs of a
field of 6 bits and a field of 10 bits. The small field of pair `p` of word `w` goes through small
table `4 * w + p`, all large fields of word `w` go through large table `w`.
-/

namespace EpochCipher

/--
The tables of a substitution layer. Entries may be wider than the fields that they are written to.
-/
structure Substitution where
  small : Vector (Vector UInt8 smallSize) smallCount
  large : Vector (Vector UInt16 largeSize) largeCount
  deriving DecidableEq

namespace Substitution

theorem smallIndex_lt (w : Fin 10) (p : Fin 4) : 4 * w.val + p.val < 40 := by
  omega

def smallIdentity : Vector UInt8 smallSize :=
  Vector.ofFn fun i => UInt8.ofNat i

def largeIdentity : Vector UInt16 largeSize :=
  Vector.ofFn fun i => UInt16.ofNat i

def identity : Substitution where
  small := Vector.replicate smallCount smallIdentity
  large := Vector.replicate largeCount largeIdentity

def draw : Draw Substitution := do
  let small ← Vector.ofFnM fun _ => shuffle smallIdentity
  let large ← Vector.ofFnM fun _ => shuffle largeIdentity
  return { small, large }

def smallEntries (t : Substitution) (i : Fin 40) : Vector Nat 64 :=
  (t.small.get i).map UInt8.toNat

def largeEntries (t : Substitution) (i : Fin 10) : Vector Nat 1024 :=
  (t.large.get i).map UInt16.toNat

def isBijective (t : Substitution) : Bool :=
  (List.finRange 40).all (fun i => Table.isBijection (t.smallEntries i).toList)
    && (List.finRange 10).all (fun i => Table.isBijection (t.largeEntries i).toList)

def invert (t : Substitution) : Except EntryOutOfRange Substitution := do
  let small ← Vector.ofFnM fun i =>
    return (← Table.invert (t.smallEntries i)).map UInt8.ofNat
  let large ← Vector.ofFnM fun i =>
    return (← Table.invert (t.largeEntries i)).map UInt16.ofNat
  return { small, large }

/--
Substitute every field of word `w` of the state. The entries are written over each other from the
low fields up: what is wider than its field spills into the next one, what goes past the word is
lost.
-/
def applyWord (t : Substitution) (w : Fin 10) (word : UInt64) : UInt64 :=
  Fin.foldl fieldPairs
    (fun next p =>
      let small := (t.small.get ⟨4 * w.val + p.val, smallIndex_lt w p⟩)[
        (Word.field word (16 * p) smallWidth).toFin]
      let large := (t.large.get w)[(Word.field word (16 * p + smallWidth) largeWidth).toFin]
      next ||| small.toUInt64 <<< UInt64.ofNat (16 * p)
        ||| large.toUInt64 <<< UInt64.ofNat (16 * p + smallWidth))
    0

def apply (t : Substitution) (x : State) : State :=
  x.mapFinIdx fun w word h => t.applyWord ⟨w, h⟩ word

@[simp]
theorem getElem_apply (t : Substitution) (x : State) (w : Nat) (h : w < 10) :
    (t.apply x)[w] = t.applyWord ⟨w, h⟩ x[w] := by
  simp [apply]

end Substitution

end EpochCipher
