import EpochCipher.Proofs.RotationUnits
import Mathlib.GroupTheory.OrderOfElement
import Mathlib.RingTheory.Nilpotent.Defs

/-!
This module contains the powers of a polynomial in the ring of rotations. They run into zero or come
back to 1, by the number of terms of the polynomial, and the 64th power tells which: from there on,
the first kind stays at zero, and the second kind starts over.
-/

namespace EpochCipher

namespace RotationRing

protected theorem pow_add (p : UInt64) (m n : Nat) :
    pow p (m + n) = mul (pow p m) (pow p n) := by
  induction m with
  | zero => simp
  | succ m ih =>
    rw [Nat.succ_add]
    rw [RotationRing.pow_succ]
    rw [RotationRing.pow_succ]
    rw [ih]
    rw [RotationRing.mul_assoc]

theorem pow_eq_iff {p : UInt64} (m : Nat) (w : UInt64) :
    pow p m = w ↔ toPoly p ^ m = toPoly w := by
  rw [← toPoly_pow]
  exact toPoly_injective.eq_iff.symm

theorem pow_64_eq_one {p : UInt64} (h : Word.weight p % 2 = 1) : pow p 64 = 1 := by
  rw [pow_eq_iff]
  rw [toPoly_one]
  exact toPoly_pow_64_eq_one h

theorem pow_64_eq_zero {p : UInt64} (h : Word.weight p % 2 = 0) : pow p 64 = 0 := by
  rw [pow_eq_iff]
  rw [toPoly_zero]
  exact toPoly_pow_64_eq_zero h

theorem pow_eq_one_iff_dvd (p : UInt64) (m : Nat) : pow p m = 1 ↔ orderOf (toPoly p) ∣ m := by
  rw [pow_eq_iff]
  rw [toPoly_one]
  rw [orderOf_dvd_iff_pow_eq_one]

theorem pow_eq_zero_iff_le {p : UInt64} (h : IsNilpotent (toPoly p)) (m : Nat) :
    pow p m = 0 ↔ nilpotencyClass (toPoly p) ≤ m := by
  rw [pow_eq_iff]
  rw [toPoly_zero]
  constructor
  . intro hzero
    exact Nat.sInf_le hzero
  . intro hle
    exact pow_eq_zero_of_le hle (pow_nilpotencyClass h)

theorem weight_even_iff_nilpotent (p : UInt64) :
    Word.weight p % 2 = 0 ↔ ∃ n ≤ 64, ∀ m, pow p m = 0 ↔ n ≤ m := by
  constructor
  . intro h
    have hnilpotent : IsNilpotent (toPoly p) := ⟨64, toPoly_pow_64_eq_zero h⟩
    refine ⟨nilpotencyClass (toPoly p), ?_, pow_eq_zero_iff_le hnilpotent⟩
    rw [← pow_eq_zero_iff_le hnilpotent]
    exact pow_64_eq_zero h
  . rintro ⟨n, hn, hzero⟩
    have hpow : pow p 64 = 0 := (hzero 64).mpr hn
    rcases Nat.mod_two_eq_zero_or_one (Word.weight p) with h | h
    . exact h
    . rw [pow_64_eq_one h] at hpow
      exact absurd hpow (by decide)

theorem weight_odd_iff_periodic (p : UInt64) :
    Word.weight p % 2 = 1 ↔ ∃ d, d ∣ 64 ∧ ∀ m, pow p m = 1 ↔ d ∣ m := by
  constructor
  . intro h
    refine ⟨orderOf (toPoly p), ?_, pow_eq_one_iff_dvd p⟩
    rw [← pow_eq_one_iff_dvd]
    exact pow_64_eq_one h
  . rintro ⟨d, hd, hone⟩
    have hpow : pow p 64 = 1 := (hone 64).mpr hd
    rcases Nat.mod_two_eq_zero_or_one (Word.weight p) with h | h
    . rw [pow_64_eq_zero h] at hpow
      exact absurd hpow (by decide)
    . exact h

theorem powers_follow_term_parity (p : UInt64) :
    (∀ m n, pow p (m + n) = mul (pow p m) (pow p n))
      ∧ pow p 64 = (if Word.weight p % 2 = 1 then 1 else 0)
      ∧ (Word.weight p % 2 = 0 ↔ ∃ n ≤ 64, ∀ m, pow p m = 0 ↔ n ≤ m)
      ∧ (Word.weight p % 2 = 1 ↔ ∃ d, d ∣ 64 ∧ ∀ m, pow p m = 1 ↔ d ∣ m) := by
  refine ⟨RotationRing.pow_add p, ?_, weight_even_iff_nilpotent p, weight_odd_iff_periodic p⟩
  split
  . next h => exact pow_64_eq_one h
  . next h => exact pow_64_eq_zero (by omega)

end RotationRing

end EpochCipher
