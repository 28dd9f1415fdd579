import EpochCipher.Digest
import EpochCipher.Proofs.Vector

/-!
This module contains the round trips between bytes and the numbers that groups of them stand for,
and with them those between blocks and states and between buffers and lanes.
-/

namespace EpochCipher

namespace LittleEndian

theorem value_lt (bytes : List UInt8) : value bytes < 256 ^ bytes.length := by
  induction bytes with
  | nil => simp
  | cons b bytes ih =>
    have hb : b.toNat < 256 := b.toNat_lt
    rw [value_cons]
    rw [List.length_cons]
    rw [pow_succ]
    omega

@[simp]
theorem byteAt_zero (b : UInt8) (n : Nat) : byteAt (b.toNat + 256 * n) 0 = b := by
  unfold byteAt
  apply UInt8.toNat_inj.mp
  have hb : b.toNat < 256 := b.toNat_lt
  simp only [Nat.mul_zero, Nat.shiftRight_zero, UInt8.toNat_ofNat', Nat.reducePow]
  omega

@[simp]
theorem byteAt_succ (b : UInt8) (n k : Nat) :
    byteAt (b.toNat + 256 * n) (k + 1) = byteAt n k := by
  unfold byteAt
  have hb : b.toNat < 256 := b.toNat_lt
  have hshift : (b.toNat + 256 * n) >>> 8 = n := by
    rw [Nat.shiftRight_eq_div_pow]
    omega
  rw [Nat.mul_succ]
  rw [Nat.add_comm (8 * k) 8]
  rw [Nat.shiftRight_add]
  rw [hshift]

theorem byteAt_value (bytes : List UInt8) (k : Nat) (h : k < bytes.length) :
    byteAt (value bytes) k = bytes[k] := by
  induction bytes generalizing k with
  | nil => simp at h
  | cons b bytes ih =>
    rw [value_cons]
    cases k with
    | zero => apply byteAt_zero
    | succ k =>
      rw [byteAt_succ]
      rw [List.getElem_cons_succ]
      apply ih

@[simp]
theorem value_map_byteAt (w n : Nat) :
    value ((List.range w).map (byteAt n)) = n % 256 ^ w := by
  induction w generalizing n with
  | zero => simp [Nat.mod_one]
  | succ w ih =>
    have htail : (List.range w).map (byteAt n ∘ Nat.succ)
        = (List.range w).map (byteAt (n / 256)) := by
      apply List.map_congr_left
      intro k _
      dsimp
      unfold byteAt
      rw [Nat.mul_succ]
      rw [Nat.add_comm (8 * k) 8]
      rw [Nat.shiftRight_add]
      rw [Nat.shiftRight_eq_div_pow n 8]
    rw [List.range_succ_eq_map]
    rw [List.map_cons]
    rw [List.map_map]
    rw [htail]
    rw [value_cons]
    rw [ih]
    rw [pow_succ']
    rw [Nat.mod_mul]
    simp [byteAt]

theorem getElem_group_lt (w : Nat) (bytes : Vector UInt8 (w * n)) (i : Nat) (h : i < n) :
    (group w bytes)[i] < 256 ^ w := by
  rw [getElem_group]
  apply Nat.lt_of_lt_of_le
  . apply value_lt
  . apply Nat.pow_le_pow_right
    . omega
    . simp

@[simp]
theorem ungroup_group (w : Nat) (bytes : Vector UInt8 (w * n)) :
    ungroup w (group w bytes) = bytes := by
  apply Vector.ext
  intro k hk
  have hw : 0 < w := Nat.pos_of_mul_pos_right (Nat.zero_lt_of_lt hk)
  have hlt : k % w < w := Nat.mod_lt k hw
  have hk' : w * (k / w) + k % w = k := Nat.div_add_mod k w
  rw [getElem_ungroup]
  rw [Vector.get_eq_getElem]
  rw [getElem_group]
  rw [byteAt_value]
  . rw [List.getElem_take]
    rw [List.getElem_drop]
    rw [Vector.getElem_toList]
    simp only [hk']
  . simp only [List.length_take, List.length_drop, Vector.length_toList]
    omega

theorem group_ungroup (w : Nat) (values : Vector Nat n)
    (h : ∀ (i : Nat) (hi : i < n), values[i] < 256 ^ w) :
    group w (ungroup w values) = values := by
  apply Vector.ext
  intro i hi
  have hle : w * (i + 1) ≤ w * n := Nat.mul_le_mul_left w hi
  rw [Nat.mul_succ] at hle
  have hbytes : ((ungroup w values).toList.drop (w * i)).take w
      = (List.range w).map (byteAt values[i]) := by
    apply List.ext_getElem
    . simp only [List.length_take, List.length_drop, Vector.length_toList, List.length_map,
        List.length_range]
      omega
    . intro k hk1 hk2
      have hk : k < w := by simpa using hk2
      have hdiv : (w * i + k) / w = i := by
        rw [Nat.mul_add_div (by omega)]
        simp [Nat.div_eq_of_lt hk]
      have hmod : (w * i + k) % w = k := by
        rw [Nat.mul_add_mod]
        apply Nat.mod_eq_of_lt hk
      simp [getElem_ungroup, Vector.get_eq_getElem, hdiv, hmod]
  rw [getElem_group]
  rw [hbytes]
  rw [value_map_byteAt]
  apply Nat.mod_eq_of_lt
  apply h

section

variable {toNat : α → Nat} {ofNat : Nat → α}

theorem map_map_group (h : ∀ k < 256 ^ w, toNat (ofNat k) = k) (bytes : Vector UInt8 (w * n)) :
    ((group w bytes).map ofNat).map toNat = group w bytes := by
  apply Vector.ext
  intro i hi
  simp only [Vector.getElem_map]
  apply h
  apply getElem_group_lt

theorem map_group_ungroup (hlt : ∀ a, toNat a < 256 ^ w) (h : ∀ a, ofNat (toNat a) = a)
    (xs : Vector α n) : (group w (ungroup w (xs.map toNat))).map ofNat = xs := by
  rw [group_ungroup]
  . apply Vector.ext
    intro i hi
    simp [h]
  . intro i hi
    rw [Vector.getElem_map]
    apply hlt

end

end LittleEndian

namespace State

open LittleEndian

@[simp]
theorem pack_unpack (block : Block) : pack (unpack block) = block := by
  unfold pack unpack
  rw [map_map_group fun k h => UInt64.toNat_ofNat_of_lt' h]
  apply ungroup_group

@[simp]
theorem unpack_pack (x : State) : unpack (pack x) = x :=
  map_group_ungroup (w := 8) UInt64.toNat_lt (fun _ => UInt64.ofNat_toNat) x

end State

namespace Keccak

open LittleEndian

@[simp]
theorem pack_unpack (buffer : Vector UInt8 100) : pack (unpack buffer) = buffer := by
  unfold pack unpack
  rw [map_map_group fun k h => UInt32.toNat_ofNat_of_lt' h]
  apply ungroup_group

@[simp]
theorem unpack_pack (a : Lanes) : unpack (pack a) = a :=
  map_group_ungroup (w := 4) UInt32.toNat_lt (fun _ => UInt32.ofNat_toNat) a

end Keccak

end EpochCipher
