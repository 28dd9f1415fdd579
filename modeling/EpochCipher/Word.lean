/-!
This module contains the operations on 64-bit words that the layers of the cipher share.
-/

namespace EpochCipher

namespace Word

def rotl (w : UInt64) (r : Nat) : UInt64 :=
  w <<< UInt64.ofNat r ||| w >>> UInt64.ofNat (64 - r % 64)

def rotr (w : UInt64) (r : Nat) : UInt64 :=
  w >>> UInt64.ofNat r ||| w <<< UInt64.ofNat (64 - r % 64)

def field (w : UInt64) (pos width : Nat) : BitVec width :=
  w.toBitVec.extractLsb' pos width

def weight (w : UInt64) : Nat :=
  (List.range 64).countP w.toBitVec.getLsbD

@[simp]
theorem toBitVec_rotl (w : UInt64) (r : Nat) :
    (rotl w r).toBitVec = w.toBitVec.rotateLeft r := by
  have h : (rotl w r).toBitVec
      = w.toBitVec <<< (r % 64) ||| w.toBitVec >>> ((64 - r % 64) % 64) := by
    simp [rotl]
  rw [h]
  rw [BitVec.rotateLeft_def]
  by_cases hr : r % 64 = 0
  . simp [hr, BitVec.ushiftRight_eq_zero]
  . rw [Nat.mod_eq_of_lt (by omega : 64 - r % 64 < 64)]

@[simp]
theorem toBitVec_rotr (w : UInt64) (r : Nat) :
    (rotr w r).toBitVec = w.toBitVec.rotateRight r := by
  have h : (rotr w r).toBitVec
      = w.toBitVec >>> (r % 64) ||| w.toBitVec <<< ((64 - r % 64) % 64) := by
    simp [rotr]
  rw [h]
  rw [BitVec.rotateRight_def]
  by_cases hr : r % 64 = 0
  . simp [hr]
  . rw [Nat.mod_eq_of_lt (by omega : 64 - r % 64 < 64)]

@[simp]
theorem rotl_mod (w : UInt64) (r : Nat) : rotl w (r % 64) = rotl w r := by
  simp [← UInt64.toBitVec_inj]

@[simp]
theorem rotr_mod (w : UInt64) (r : Nat) : rotr w (r % 64) = rotr w r := by
  simp [← UInt64.toBitVec_inj]

theorem getLsbD_rotl (w : UInt64) (r i : Nat) (hi : i < 64) :
    (rotl w r).toBitVec.getLsbD i = w.toBitVec.getLsbD ((i + 64 - r % 64) % 64) := by
  rw [toBitVec_rotl]
  rw [BitVec.getLsbD_rotateLeft]
  have hr : r % 64 < 64 := Nat.mod_lt r (by decide)
  by_cases h : i < r % 64
  . have hi' : (i + 64 - r % 64) % 64 = 64 - r % 64 + i := by omega
    simp [h, hi']
  . have hi' : (i + 64 - r % 64) % 64 = i - r % 64 := by omega
    simp [h, hi, hi']

theorem getLsbD_rotr (w : UInt64) (r i : Nat) (hi : i < 64) :
    (rotr w r).toBitVec.getLsbD i = w.toBitVec.getLsbD ((i + r % 64) % 64) := by
  rw [toBitVec_rotr]
  rw [BitVec.getLsbD_rotateRight]
  have hr : r % 64 < 64 := Nat.mod_lt r (by decide)
  by_cases h : i < 64 - r % 64
  . have hi' : (i + r % 64) % 64 = r % 64 + i := by omega
    simp [h, hi']
  . have hi' : (i + r % 64) % 64 = i - (64 - r % 64) := by omega
    simp [h, hi, hi']

@[simp]
theorem rotr_rotl (w : UInt64) (r : Nat) : rotr (rotl w r) r = w := by
  apply UInt64.toBitVec_inj.mp
  apply BitVec.eq_of_getLsbD_eq
  intro i hi
  rw [getLsbD_rotr _ _ _ hi]
  rw [getLsbD_rotl _ _ _ (by omega)]
  congr 1
  omega

theorem getLsbD_field (w : UInt64) (pos width i : Nat) :
    (field w pos width).getLsbD i = (decide (i < width) && w.toBitVec.getLsbD (pos + i)) := by
  simp [field]

end Word

end EpochCipher
