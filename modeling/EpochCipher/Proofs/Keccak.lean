import EpochCipher.Keccak
import Mathlib.Tactic.Ring

/-!
This module contains the proof that Keccak-p[800] loses nothing, by the bits of its state: bit `z`
of the lane of column `x` and row `y`, with `x` and `y` modulo 5 and `z` modulo 32.
-/

namespace EpochCipher

namespace Keccak

def bit (a : Lanes) (x y z : Nat) : Bool :=
  (lane a x y).toBitVec.getLsbD (z % 32)

def column (a : Lanes) (x z : Nat) : Bool :=
  (parity a x).toBitVec.getLsbD (z % 32)

theorem lane_congr {x x' y y' : Nat} (a : Lanes) (hx : x % 5 = x' % 5) (hy : y % 5 = y' % 5) :
    lane a x y = lane a x' y' := by
  unfold lane
  simp only [hx, hy]

theorem parity_congr {x x' : Nat} (a : Lanes) (hx : x % 5 = x' % 5) : parity a x = parity a x' := by
  unfold parity
  simp only [lane_congr a hx rfl]

theorem bit_congr {x x' y y' z z' : Nat} (a : Lanes) (hx : x % 5 = x' % 5) (hy : y % 5 = y' % 5)
    (hz : z % 32 = z' % 32) : bit a x y z = bit a x' y' z' := by
  unfold bit
  rw [lane_congr a hx hy]
  rw [hz]

theorem column_congr {x x' z z' : Nat} (a : Lanes) (hx : x % 5 = x' % 5)
    (hz : z % 32 = z' % 32) : column a x z = column a x' z' := by
  unfold column
  rw [parity_congr a hx]
  rw [hz]

theorem eq_of_bit_eq {a b : Lanes} (h : ∀ x y z, bit a x y z = bit b x y z) : a = b := by
  apply Vector.ext
  intro i hi
  apply UInt32.toBitVec_inj.mp
  apply BitVec.eq_of_getLsbD_eq
  intro z hz
  have hi' : i % 5 + 5 * (i / 5 % 5) = i := by omega
  have := h i (i / 5) z
  simp only [bit, lane, hi', Nat.mod_eq_of_lt hz] at this
  exact this

theorem column_eq (a : Lanes) (x z : Nat) :
    column a x z
      =
    (bit a x 0 z ^^ bit a x 1 z ^^ bit a x 2 z ^^ bit a x 3 z ^^ bit a x 4 z) := by
  simp [column, parity, bit]

theorem getLsbD_rotl (w : UInt32) (r z : Nat) :
    (rotl w r).toBitVec.getLsbD ((z + r) % 32) = w.toBitVec.getLsbD (z % 32) := by
  unfold rotl
  rw [BitVec.getLsbD_rotateLeft]
  by_cases h : (z + r) % 32 < r % 32
  . have hz : 32 - r % 32 + (z + r) % 32 = z % 32 := by omega
    simp [h, hz]
  . have hz : (z + r) % 32 - r % 32 = z % 32 := by omega
    have hlt : (z + r) % 32 < 32 := by omega
    simp [h, hz, hlt]

@[simp]
theorem bit_theta (a : Lanes) (x y z : Nat) :
    bit (theta a) x y z
      =
    (bit a x y z ^^ column a (x + 4) z ^^ column a (x + 1) (z + 31)) := by
  have hlane : lane (theta a) x y
      = lane a x y ^^^ (parity a (x + 4) ^^^ rotl (parity a (x + 1)) 1) := by
    unfold theta
    rw [lane]
    rw [Vector.getElem_mapIdx]
    rw [parity_congr a (show (x % 5 + 5 * (y % 5) + 4) % 5 = (x + 4) % 5 by omega)]
    rw [parity_congr a (show (x % 5 + 5 * (y % 5) + 1) % 5 = (x + 1) % 5 by omega)]
    rfl
  have hrotl := getLsbD_rotl (parity a (x + 1)) 1 (z + 31)
  rw [show (z + 31 + 1) % 32 = z % 32 by omega] at hrotl
  unfold bit
  unfold column
  rw [hlane]
  simp only [UInt32.toBitVec_xor, BitVec.getLsbD_xor, hrotl, Bool.xor_assoc]

theorem bit_rho (a : Lanes) (x y z : Nat) (h : x % 5 + 5 * (y % 5) < 25) :
    bit (rho a) x y (z + offsets[x % 5 + 5 * (y % 5)]) = bit a x y z := by
  unfold bit
  unfold rho
  unfold lane
  rw [Vector.getElem_zipWith]
  apply getLsbD_rotl

@[simp]
theorem bit_pi (a : Lanes) (x y z : Nat) : bit (pi a) x y z = bit a (x + 3 * y) x z := by
  have hlane : lane (pi a) x y = lane a (x + 3 * y) x := by
    unfold pi
    rw [lane]
    rw [Vector.getElem_ofFn]
    apply lane_congr
    . dsimp only
      omega
    . dsimp only
      omega
  unfold bit
  rw [hlane]

@[simp]
theorem bit_chi (a : Lanes) (x y z : Nat) :
    bit (chi a) x y z = (bit a x y z ^^ (!bit a (x + 1) y z && bit a (x + 2) y z)) := by
  have hlane : lane (chi a) x y = lane a x y ^^^ (~~~lane a (x + 1) y &&& lane a (x + 2) y) := by
    unfold chi
    rw [lane]
    rw [Vector.getElem_mapIdx]
    rw [lane_congr a (show ((x % 5 + 5 * (y % 5)) % 5 + 1) % 5 = (x + 1) % 5 by omega)
      (show (x % 5 + 5 * (y % 5)) / 5 % 5 = y % 5 by omega)]
    rw [lane_congr a (show ((x % 5 + 5 * (y % 5)) % 5 + 2) % 5 = (x + 2) % 5 by omega)
      (show (x % 5 + 5 * (y % 5)) / 5 % 5 = y % 5 by omega)]
    rfl
  have hz : z % 32 < 32 := by omega
  unfold bit
  rw [hlane]
  simp [hz, -BitVec.getLsbD_eq_getElem]

/-- What `theta` does to the sums of the columns, repeated by squaring. -/
def spread (m : Nat) (c : Nat → Nat → Bool) (x z : Nat) : Bool :=
  c x z ^^ c (x + 4 * m) z ^^ c (x + m) (z + 31 * m)

theorem column_theta (a : Lanes) : column (theta a) = spread 1 (column a) := by
  funext x z
  rw [column_eq]
  simp only [bit_theta]
  unfold spread
  rw [column_eq a x]
  simp [Bool.xor_comm, Bool.xor_left_comm]

@[simp]
theorem spread_spread (m : Nat) (c : Nat → Nat → Bool) :
    spread m (spread m c) = spread (2 * m) c := by
  funext x z
  unfold spread
  rw [show x + 4 * m + 4 * m = x + 4 * (2 * m) by omega]
  rw [show x + m + 4 * m = x + 4 * m + m by omega]
  rw [show x + m + m = x + 2 * m by omega]
  rw [show z + 31 * m + 31 * m = z + 31 * (2 * m) by omega]
  -- Every mixed term occurs twice.
  simp [Bool.xor_comm, Bool.xor_left_comm]

theorem spread_two_pow_congr {c d : Nat → Nat → Bool} (h : spread 1 c = spread 1 d) (k : Nat) :
    spread (2 ^ k) c = spread (2 ^ k) d := by
  induction k with
  | zero => exact h
  | succ k ih =>
    rw [Nat.pow_succ']
    rw [← spread_spread]
    rw [ih]
    rw [spread_spread]

@[simp]
theorem spread_column_cancel (a : Lanes) :
    spread (2 ^ 5) (spread (2 ^ 6) (column a)) = column a := by
  funext x z
  have hz5 : (z + 31 * 2 ^ 5) % 32 = z % 32 := by omega
  have hz6 : (z + 31 * 2 ^ 6) % 32 = z % 32 := by omega
  have hz56 : (z + 31 * 2 ^ 5 + 31 * 2 ^ 6) % 32 = z % 32 := by omega
  unfold spread
  -- All bits make whole turns, so that only the columns move.
  rw [column_congr a (show (x + 4 * 2 ^ 6) % 5 = (x + 1) % 5 by omega) rfl]
  rw [column_congr a (show (x + 2 ^ 6) % 5 = (x + 4) % 5 by omega) hz6]
  rw [column_congr a (show (x + 4 * 2 ^ 5) % 5 = (x + 3) % 5 by omega) rfl]
  rw [column_congr a (show (x + 4 * 2 ^ 5 + 4 * 2 ^ 6) % 5 = (x + 4) % 5 by omega) rfl]
  rw [column_congr a (show (x + 4 * 2 ^ 5 + 2 ^ 6) % 5 = (x + 2) % 5 by omega) hz6]
  rw [column_congr a (show (x + 2 ^ 5) % 5 = (x + 2) % 5 by omega) hz5]
  rw [column_congr a (show (x + 2 ^ 5 + 4 * 2 ^ 6) % 5 = (x + 3) % 5 by omega) hz5]
  rw [column_congr a (show (x + 2 ^ 5 + 2 ^ 6) % 5 = (x + 1) % 5 by omega) hz56]
  simp [Bool.xor_comm, Bool.xor_left_comm]

theorem theta_injective : Function.Injective theta := by
  intro a b h
  have hcolumns : spread 1 (column a) = spread 1 (column b) := by
    rw [← column_theta]
    rw [h]
    rw [column_theta]
  have hcolumn : column a = column b := by
    rw [← spread_column_cancel a]
    rw [spread_two_pow_congr hcolumns 6]
    rw [spread_column_cancel]
  apply eq_of_bit_eq
  intro x y z
  have hbit := congrArg (fun a => bit a x y z) h
  simp only [bit_theta, hcolumn] at hbit
  simpa using hbit

theorem rho_injective : Function.Injective rho := by
  intro a b h
  apply eq_of_bit_eq
  intro x y z
  rw [← bit_rho a x y z (by omega)]
  rw [h]
  rw [bit_rho]

theorem pi_injective : Function.Injective pi := by
  intro a b h
  have hback : ∀ c x y z, bit c x y z = bit (pi c) y (2 * x + 3 * y) z := by
    intro c x y z
    rw [bit_pi]
    apply bit_congr
    . omega
    . rfl
    . rfl
  apply eq_of_bit_eq
  intro x y z
  rw [hback a]
  rw [h]
  rw [← hback]

theorem chi_row_injective : ∀ a0 a1 a2 a3 a4 b0 b1 b2 b3 b4 : Bool,
    (a0 ^^ (!a1 && a2)) = (b0 ^^ (!b1 && b2)) → (a1 ^^ (!a2 && a3)) = (b1 ^^ (!b2 && b3)) →
    (a2 ^^ (!a3 && a4)) = (b2 ^^ (!b3 && b4)) → (a3 ^^ (!a4 && a0)) = (b3 ^^ (!b4 && b0)) →
    (a4 ^^ (!a0 && a1)) = (b4 ^^ (!b0 && b1)) → a0 = b0 := by
  decide

theorem chi_injective : Function.Injective chi := by
  intro a b h
  apply eq_of_bit_eq
  intro x y z
  have hrow : ∀ k, (bit a (x + k) y z ^^ (!bit a (x + k + 1) y z && bit a (x + k + 2) y z))
      = (bit b (x + k) y z ^^ (!bit b (x + k + 1) y z && bit b (x + k + 2) y z)) := by
    intro k
    rw [← bit_chi]
    rw [h]
    rw [bit_chi]
  have hfive : ∀ c k, bit c (x + k + 5) y z = bit c (x + k) y z := by
    intro c k
    apply bit_congr
    . omega
    . rfl
    . rfl
  -- The last two bits of the row look at its first ones.
  have h3 := hrow 3
  have h4 := hrow 4
  rw [show x + 3 + 2 = x + 0 + 5 by omega] at h3
  rw [show x + 4 + 1 = x + 0 + 5 by omega] at h4
  rw [show x + 4 + 2 = x + 1 + 5 by omega] at h4
  rw [hfive a 0] at h3 h4
  rw [hfive b 0] at h3 h4
  rw [hfive a 1] at h4
  rw [hfive b 1] at h4
  exact chi_row_injective _ _ _ _ _ _ _ _ _ _ (hrow 0) (hrow 1) (hrow 2) h3 h4

@[simp]
theorem iota_iota (constant : UInt32) (a : Lanes) : iota constant (iota constant a) = a := by
  unfold iota
  rw [Vector.getElem_set_self]
  rw [UInt32.xor_assoc]
  simp

theorem round_injective (constant : UInt32) : Function.Injective fun a => round a constant := by
  have hiota : Function.Injective (iota constant) :=
    Function.LeftInverse.injective (iota_iota constant)
  intro a b h
  apply theta_injective
  apply rho_injective
  apply pi_injective
  apply chi_injective
  apply hiota
  exact h

theorem permute_injective (rounds : Nat) : Function.Injective (permute rounds) := by
  unfold permute
  generalize roundConstants.drop (roundConstants.length - rounds) = constants
  induction constants with
  | nil =>
    intro a b h
    exact h
  | cons constant constants ih =>
    intro a b h
    simp only [List.foldl_cons] at h
    have hround : round a constant = round b constant := ih h
    exact round_injective constant hround

end Keccak

end EpochCipher
