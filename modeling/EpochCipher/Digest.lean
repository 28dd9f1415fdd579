import EpochCipher.Cipher
import EpochCipher.Keccak

/-!
This module contains the hash: the input is padded to a buffer of 100 bytes, of which the first 80
are encrypted, and the first 32 bytes of the permuted buffer are the digest.
-/

namespace EpochCipher

abbrev Digest := Vector UInt8 digestBytes

/-- The input, a byte 1 and zeros. -/
def padded (data : Array UInt8) : Vector UInt8 bufferBytes :=
  Vector.ofFn fun i => data[i.val]?.getD (if i.val = data.size then 1 else 0)

namespace Schedule

def hashBuffer (s : Schedule) (data : Array UInt8) : Vector UInt8 100 :=
  let buffer := padded data
  let block : Block := Vector.ofFn fun i => buffer[i.val]
  let cipher := s.encrypt block
  buffer.mapFinIdx fun i byte _ => if h : i < 80 then cipher[i] else byte

def digestWith (s : Schedule) (permute : Keccak.Lanes → Keccak.Lanes) (data : Array UInt8) :
    Digest :=
  let buffer := Keccak.onBytes permute (s.hashBuffer data)
  Vector.ofFn fun i => buffer[i.val]

/--
Hash an input, with any function of the lanes to close the buffer. An input that does not fit into a
block is refused.
-/
def hashWith (s : Schedule) (permute : Keccak.Lanes → Keccak.Lanes) (data : Array UInt8) :
    Except Fault Digest :=
  if data.size > blockBytes then
    .error (.inputTooLong data.size blockBytes)
  else
    .ok (s.digestWith permute data)

def digest (s : Schedule) (data : Array UInt8) : Digest :=
  s.digestWith (Keccak.permute closingRounds) data

def hash (s : Schedule) (data : Array UInt8) : Except Fault Digest :=
  s.hashWith (Keccak.permute closingRounds) data

def hashBlock (s : Schedule) (block : Block) : Digest :=
  s.digest block.toArray

end Schedule

end EpochCipher
