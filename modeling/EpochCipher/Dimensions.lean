/-!
This module contains the numbers that fix the cipher: the sizes of its state, tables and networks,
the parameters of its generator and of its closing permutation, and the default length of an epoch.

The sizes are reducible: an index below `smallCount` is one below 40, and the arithmetic of indices
may be left to numerals.
-/

namespace EpochCipher

abbrev wordBits : Nat := 64

abbrev blockBytes : Nat := 80

abbrev blockBits : Nat := 8 * blockBytes

abbrev stateWords : Nat := blockBits / wordBits

abbrev wordPairs : Nat := stateWords / 2

abbrev roundCount : Nat := 84

abbrev smallWidth : Nat := 6

abbrev largeWidth : Nat := 10

abbrev smallSize : Nat := 1 <<< smallWidth

abbrev largeSize : Nat := 1 <<< largeWidth

abbrev smallCount : Nat := blockBits / (smallWidth + largeWidth)

abbrev largeCount : Nat := stateWords

abbrev fieldPairs : Nat := smallCount / stateWords

abbrev subroundCount : Nat := 6

/-- The factor by which a network moves the words. -/
abbrev wordStride : Nat := 3

abbrev wordUnstride : Nat := 7

abbrev rotationCount : Nat := 6

abbrev digestBytes : Nat := 32

abbrev bufferBytes : Nat := 100

abbrev laneCount : Nat := 25

abbrev closingRounds : Nat := 12

/-- Seconds in an epoch of the main chain: ten days. -/
def mainnetInterval : UInt32 := 10 * 24 * 60 * 60

def baseMultiplicand : UInt64 := 6364136223846793005

def baseAddend : UInt64 := 1442695040888963407

theorem wordStride_mul_wordUnstride : wordStride * wordUnstride % stateWords = 1 := rfl

theorem rotationCount_even : rotationCount % 2 = 0 := rfl

theorem blockBytes_lt_bufferBytes : blockBytes < bufferBytes := by decide

end EpochCipher
