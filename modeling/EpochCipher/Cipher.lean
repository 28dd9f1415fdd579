import EpochCipher.LinearMix
import EpochCipher.LittleEndian
import EpochCipher.Schedule

/-!
This module contains the cipher: 84 rounds of a network, the substitution, the other network, the
linear mix and the round key, after one mix of all words.
-/

namespace EpochCipher

abbrev Block := Vector UInt8 80

inductive DecryptError where
  | table (e : EntryOutOfRange)
  | mix (e : SingularMix)
  deriving DecidableEq

namespace DecryptError

def message : DecryptError → String
  | table e => e.message
  | mix e => e.message

end DecryptError

namespace State

def unpack (block : Block) : State :=
  (LittleEndian.group 8 (n := 10) block).map UInt64.ofNat

def pack (x : State) : Block :=
  LittleEndian.ungroup 8 (x.map UInt64.toNat)

end State

namespace Schedule

open State

def round (s : Schedule) (x : State) (roundKey : UInt16) : State :=
  let x := s.networks[0].apply x
  let x := s.substitution.apply x
  let x := s.networks[1].apply x
  injectKey roundKey (linearMix s.rotations x)

def unround (s : Schedule) (inverse : Substitution) (roundKey : UInt16) (x : State) :
    Except SingularMix State := do
  let x ← linearUnmix s.rotations (injectKey roundKey x)
  let x := s.networks[1].unapply x
  let x := inverse.apply x
  return s.networks[0].unapply x

def encrypt (s : Schedule) (plain : Block) : Block :=
  pack (s.roundKeys.foldl s.round (preMix (unpack plain)))

/-- Decrypt a block. Fails if a table cannot be inverted, whatever the block. -/
def decrypt (s : Schedule) (cipher : Block) : Except DecryptError Block := do
  let inverse ← s.substitution.invert.mapError .table
  let x ← (s.roundKeys.foldrM (s.unround inverse) (unpack cipher)).mapError .mix
  return pack (preMix x)

def describeCipher (s : Schedule) : String :=
  "OdoCrypt \x7b schedule: " ++ s.describe ++ ", .. \x7d"

end Schedule

end EpochCipher
