import EpochCipher.Dimensions
import EpochCipher.LittleEndian

/-!
This module contains the permutation Keccak-p[800]. Its state consists of 25 lanes of 32 bits; the
lane of column `x` and row `y` stands at index `x + 5 * y`.
-/

namespace EpochCipher

namespace Keccak

abbrev Lanes := Vector UInt32 25

def rotl (lane : UInt32) (r : Nat) : UInt32 :=
  ⟨lane.toBitVec.rotateLeft r⟩

def lane (a : Lanes) (x y : Nat) : UInt32 :=
  a[x % 5 + 5 * (y % 5)]

def parity (a : Lanes) (x : Nat) : UInt32 :=
  lane a x 0 ^^^ lane a x 1 ^^^ lane a x 2 ^^^ lane a x 3 ^^^ lane a x 4

def theta (a : Lanes) : Lanes :=
  a.mapIdx fun i word => word ^^^ (parity a (i + 4) ^^^ rotl (parity a (i + 1)) 1)

def offsets : Vector Nat 25 :=
  #v[0, 1, 62, 28, 27, 36, 44, 6, 55, 20, 3, 10, 43, 25, 39, 41, 45, 15, 21, 8, 18, 2, 61, 56, 14]

def rho (a : Lanes) : Lanes :=
  Vector.zipWith rotl a offsets

def pi (a : Lanes) : Lanes :=
  Vector.ofFn fun i => lane a (i % 5 + 3 * (i / 5)) (i % 5)

def chi (a : Lanes) : Lanes :=
  a.mapIdx fun i word => word ^^^ (~~~lane a (i % 5 + 1) (i / 5) &&& lane a (i % 5 + 2) (i / 5))

def iota (constant : UInt32) (a : Lanes) : Lanes :=
  a.set 0 (a[0] ^^^ constant)

def round (a : Lanes) (constant : UInt32) : Lanes :=
  iota constant (chi (pi (rho (theta a))))

def roundConstants : List UInt32 :=
  [0x00000001, 0x00008082, 0x0000808A, 0x80008000, 0x0000808B, 0x80000001, 0x80008081, 0x00008009,
    0x0000008A, 0x00000088, 0x80008009, 0x8000000A, 0x8000808B, 0x0000008B, 0x00008089, 0x00008003,
    0x00008002, 0x00000080, 0x0000800A, 0x8000000A, 0x80008081, 0x00008080]

/-- Run the last `rounds` rounds. -/
def permute (rounds : Nat) (a : Lanes) : Lanes :=
  (roundConstants.drop (roundConstants.length - rounds)).foldl round a

def unpack (buffer : Vector UInt8 bufferBytes) : Lanes :=
  (LittleEndian.group 4 (n := laneCount) buffer).map UInt32.ofNat

def pack (a : Lanes) : Vector UInt8 bufferBytes :=
  LittleEndian.ungroup 4 (a.map UInt32.toNat)

def store (a : Lanes) (buffer : Vector UInt8 bufferBytes) : Vector UInt8 bufferBytes :=
  LittleEndian.store 4 (n := laneCount) (a.map UInt32.toNat) buffer

def onBytes (f : Lanes → Lanes) (buffer : Vector UInt8 100) : Vector UInt8 100 :=
  pack (f (unpack buffer))

def close (buffer : Vector UInt8 100) : Vector UInt8 100 :=
  onBytes (permute closingRounds) buffer

end Keccak

end EpochCipher
