import EpochCipher.Cipher

/-!
This module contains the cipher with its table look-ups taken at face value: a field is shifted and
masked out of its word, the number that this gives is compared with the length of the table, and the
first index out of bounds ends the run.
-/

namespace EpochCipher

namespace Checked

open State

def fieldIndex (word : UInt64) (pos width : Nat) : Nat :=
  (word >>> UInt64.ofNat pos &&& (1 <<< UInt64.ofNat width - 1)).toNat

def lookup (table : Vector α n) (i : Nat) : Except EntryOutOfRange α :=
  if h : i < n then .ok table[i] else .error { size := n, entry := i }

def applyWord (t : Substitution) (w : Fin 10) (word : UInt64) : Except EntryOutOfRange UInt64 :=
  Fin.foldlM fieldPairs
    (fun next p => do
      let small ← lookup (t.small.get ⟨4 * w.val + p.val, Substitution.smallIndex_lt w p⟩)
        (fieldIndex word (16 * p) smallWidth)
      let large ← lookup (t.large.get w) (fieldIndex word (16 * p + smallWidth) largeWidth)
      return next ||| small.toUInt64 <<< UInt64.ofNat (16 * p)
        ||| large.toUInt64 <<< UInt64.ofNat (16 * p + smallWidth))
    0

def apply (t : Substitution) (x : State) : Except EntryOutOfRange State :=
  Vector.ofFnM fun w => applyWord t w (x.get w)

def round (s : Schedule) (x : State) (roundKey : UInt16) : Except EntryOutOfRange State := do
  let x ← apply s.substitution ((s.networks.get ⟨0, Nat.zero_lt_two⟩).apply x)
  let x := (s.networks.get ⟨1, Nat.one_lt_two⟩).apply x
  return injectKey roundKey (linearMix s.rotations x)

def unround (s : Schedule) (inverse : Substitution) (roundKey : UInt16) (x : State) :
    Except DecryptError State := do
  let x ← (linearUnmix s.rotations (injectKey roundKey x)).mapError .mix
  let x ← (apply inverse ((s.networks.get ⟨1, Nat.one_lt_two⟩).unapply x)).mapError .table
  return (s.networks.get ⟨0, Nat.zero_lt_two⟩).unapply x

def encrypt (s : Schedule) (plain : Block) : Except EntryOutOfRange Block := do
  return pack (← s.roundKeys.foldlM (round s) (preMix (unpack plain)))

def decrypt (s : Schedule) (cipher : Block) : Except DecryptError Block := do
  let inverse ← s.substitution.invert.mapError .table
  let x ← s.roundKeys.foldrM (unround s inverse) (unpack cipher)
  return pack (preMix x)

end Checked

end EpochCipher
