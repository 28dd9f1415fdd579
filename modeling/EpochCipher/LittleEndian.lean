/-!
This module contains the conversion between bytes and the numbers that groups of them stand for,
least significant byte first.
-/

namespace EpochCipher

namespace LittleEndian

def value (bytes : List UInt8) : Nat :=
  bytes.foldr (fun b rest => b.toNat + 256 * rest) 0

def byteAt (n k : Nat) : UInt8 :=
  UInt8.ofNat (n >>> (8 * k))

def group (w : Nat) (bytes : Vector UInt8 (w * n)) : Vector Nat n :=
  Vector.ofFn fun i => value ((bytes.toList.drop (w * i)).take w)

def ungroup (w : Nat) (values : Vector Nat n) : Vector UInt8 (w * n) :=
  Vector.ofFn fun k => byteAt (values.get ⟨k / w, Nat.div_lt_of_lt_mul k.isLt⟩) (k % w)

def writeChunk (w i value : Nat) (buffer : Vector UInt8 m) : Vector UInt8 m :=
  buffer.mapIdx fun k old => if k / w = i then byteAt value (k % w) else old

def store (w : Nat) (values : Vector Nat n) (buffer : Vector UInt8 (w * n)) :
    Vector UInt8 (w * n) :=
  Fin.foldl n (fun buffer i => writeChunk w i.val (values.get i) buffer) buffer

@[simp]
theorem value_nil : value [] = 0 := rfl

@[simp]
theorem value_cons (b : UInt8) (bytes : List UInt8) :
    value (b :: bytes) = b.toNat + 256 * value bytes := rfl

@[simp]
theorem getElem_group (w : Nat) (bytes : Vector UInt8 (w * n)) (i : Nat) (h : i < n) :
    (group w bytes)[i] = value ((bytes.toList.drop (w * i)).take w) := by
  simp [group]

@[simp]
theorem getElem_ungroup (w : Nat) (values : Vector Nat n) (k : Nat) (h : k < w * n) :
    (ungroup w values)[k] = byteAt (values.get ⟨k / w, Nat.div_lt_of_lt_mul h⟩) (k % w) := by
  simp [ungroup]

@[simp]
theorem getElem_writeChunk (w i value : Nat) (buffer : Vector UInt8 m) (k : Nat) (h : k < m) :
    (writeChunk w i value buffer)[k] = if k / w = i then byteAt value (k % w) else buffer[k] := by
  simp [writeChunk]

end LittleEndian

end EpochCipher
