import EpochCipher.RotationRing
import EpochCipher.Proofs.Vector
import Mathlib

/-!
This module contains the theory of the ring of rotations. Words are sent to polynomials over the
two-element field modulo `x ^ 64 + 1`, where the laws of a commutative ring hold; they come back to
words as no two words stand for one polynomial.

In this ring the 64th power of a polynomial is the number of its terms modulo two, which tells the
units from the nilpotent elements.
-/

namespace EpochCipher

namespace RotationRing

abbrev Poly := AddMonoidAlgebra (ZMod 2) (ZMod 64)

def coefficient (w : UInt64) (k : ZMod 64) : ZMod 2 :=
  if w.toBitVec.getLsbD k.val then 1 else 0

noncomputable def toPoly (w : UInt64) : Poly :=
  .ofCoeff (Finsupp.equivFunOnFinite.symm (coefficient w))

@[simp]
theorem coeff_toPoly (w : UInt64) (k : ZMod 64) : (toPoly w).coeff k = coefficient w k := rfl

theorem toPoly_injective : Function.Injective toPoly := by
  intro v w h
  apply UInt64.toBitVec_inj.mp
  apply BitVec.eq_of_getLsbD_eq
  intro i hi
  have hcoeff := congrArg (fun p => p.coeff (i : ZMod 64)) h
  simp only [coeff_toPoly, coefficient, ZMod.val_natCast_of_lt hi] at hcoeff
  by_cases hv : v.toBitVec.getLsbD i <;> by_cases hw : w.toBitVec.getLsbD i <;> simp_all

@[simp]
theorem toPoly_xor (v w : UInt64) : toPoly (v ^^^ w) = toPoly v + toPoly w := by
  ext k
  rw [AddMonoidAlgebra.coeff_add]
  rw [Finsupp.add_apply]
  simp only [coeff_toPoly, coefficient, UInt64.toBitVec_xor, BitVec.getLsbD_xor]
  cases v.toBitVec.getLsbD k.val with
  | false => simp
  | true =>
    cases w.toBitVec.getLsbD k.val with
    | false => simp
    | true => decide

theorem val_neg_add (r : Nat) (k : ZMod 64) :
    (-(r : ZMod 64) + k).val = (k.val + 64 - r % 64) % 64 := by
  have hle : r % 64 ≤ k.val + 64 := by omega
  have hcast : -(r : ZMod 64) + k = (k.val + 64 - r % 64 : ℕ) := by
    rw [Nat.cast_sub hle]
    rw [Nat.cast_add]
    rw [ZMod.natCast_mod]
    rw [ZMod.natCast_rightInverse k]
    rw [ZMod.natCast_self]
    ring
  rw [hcast]
  rw [ZMod.val_natCast]

@[simp]
theorem toPoly_rotl (w : UInt64) (r : Nat) :
    toPoly (Word.rotl w r) = .single (r : ZMod 64) 1 * toPoly w := by
  ext k
  rw [AddMonoidAlgebra.coeff_single_mul_apply]
  rw [one_mul]
  simp only [coeff_toPoly, coefficient]
  rw [val_neg_add]
  rw [Word.getLsbD_rotl _ _ _ k.val_lt]

@[simp]
theorem toPoly_zero : toPoly 0 = 0 := by
  ext k
  simp [coeff_toPoly, coefficient]

@[simp]
theorem toPoly_monomial (k : Nat) : toPoly (monomial k) = .single (k : ZMod 64) 1 := by
  ext j
  have hj : k % 64 = j.val ↔ (k : ZMod 64) = j := by
    rw [← ZMod.val_natCast]
    exact (ZMod.val_injective 64).eq_iff
  rw [AddMonoidAlgebra.coeff_single]
  rw [Finsupp.single_apply]
  simp [coeff_toPoly, coefficient, BitVec.getLsbD_twoPow, hj, Nat.mod_lt k]

theorem getLsbD_monomial (k b : Fin 64) :
    (monomial k.val).toBitVec.getLsbD b.val = decide (b = k) := by
  rw [toBitVec_monomial]
  rw [BitVec.getLsbD_twoPow]
  rw [Nat.mod_eq_of_lt k.isLt]
  simp [Fin.ext_iff, eq_comm]

@[simp]
theorem toPoly_one : toPoly 1 = 1 := by
  rw [show (1 : UInt64) = monomial 0 by decide]
  rw [toPoly_monomial]
  rw [Nat.cast_zero]
  rw [AddMonoidAlgebra.one_def]

theorem toPoly_eq_single_add_tail (p : UInt64) :
    toPoly p = .single (degree p : ZMod 64) 1 + toPoly (tail p) := by
  rw [← toPoly_monomial]
  rw [← toPoly_xor]
  rw [tail]
  rw [UInt64.xor_comm p]
  rw [← UInt64.xor_assoc]
  simp

@[simp]
theorem toPoly_mul (p v : UInt64) : toPoly (mul p v) = toPoly p * toPoly v := by
  by_cases h : p = 0
  . subst h
    simp
  . rw [mul_eq_rotl_xor_mul_tail h]
    rw [toPoly_xor]
    rw [toPoly_rotl]
    rw [toPoly_mul (tail p)]
    rw [toPoly_eq_single_add_tail p]
    ring
termination_by p.toNat
decreasing_by exact toNat_tail_lt h

@[simp]
theorem toPoly_pow (p : UInt64) (n : Nat) : toPoly (pow p n) = toPoly p ^ n := by
  induction n with
  | zero => simp
  | succ n ih => simp [RotationRing.pow_succ, ih, pow_succ']

instance : CharP Poly 2 := by
  apply CharTwo.of_one_ne_zero_of_two_eq_zero
  . exact one_ne_zero
  . rw [← map_ofNat (algebraMap (ZMod 2) Poly) 2]
    rw [show (2 : ZMod 2) = 0 by decide]
    rw [map_zero]

theorem toPoly_eq_sum (w : UInt64) :
    toPoly w = ∑ k : ZMod 64, .single k (coefficient w k) := by
  apply AddMonoidAlgebra.coeff_injective
  rw [AddMonoidAlgebra.coeff_sum]
  simp only [AddMonoidAlgebra.coeff_single]
  exact (Finsupp.univ_sum_single (toPoly w).coeff).symm

theorem coefficient_eq_toNat (w : UInt64) (k : ZMod 64) :
    coefficient w k = ((w.toBitVec.getLsbD k.val).toNat : ZMod 2) := by
  unfold coefficient
  cases w.toBitVec.getLsbD k.val with
  | false => simp
  | true => simp

theorem sum_coefficient (w : UInt64) :
    ∑ k : ZMod 64, coefficient w k = (Word.weight w : ZMod 2) := by
  rw [Word.weight]
  rw [countP_range_eq_sum]
  rw [Nat.cast_sum]
  apply Finset.sum_congr rfl
  intro k _
  exact coefficient_eq_toNat w k

theorem add_pow_64 (p q : Poly) : (p + q) ^ 64 = p ^ 64 + q ^ 64 :=
  add_pow_char_pow p q (p := 2) (n := 6)

theorem single_pow_64 (k : ZMod 64) (c : ZMod 2) :
    (AddMonoidAlgebra.single k c : Poly) ^ 64 = .single 0 c := by
  have hexponent : 64 • k = 0 := by
    rw [nsmul_eq_mul]
    rw [ZMod.natCast_self]
    rw [MulZeroClass.zero_mul]
  have hcoefficient : c ^ 64 = c := by
    revert c
    decide
  rw [AddMonoidAlgebra.single_pow]
  rw [hexponent]
  rw [hcoefficient]

@[simp]
theorem toPoly_pow_64 (w : UInt64) : toPoly w ^ 64 = (Word.weight w : Poly) := by
  calc toPoly w ^ 64
    _ = (∑ k : ZMod 64, .single k (coefficient w k)) ^ 2 ^ 6 := by rw [← toPoly_eq_sum]; rfl
    _ = ∑ k : ZMod 64, (.single k (coefficient w k) : Poly) ^ 2 ^ 6 := by rw [sum_pow_char_pow]
    _ = ∑ k : ZMod 64, .single 0 (coefficient w k) := by
        apply Finset.sum_congr rfl
        intro k _
        exact single_pow_64 k (coefficient w k)
    _ = .single 0 (∑ k : ZMod 64, coefficient w k) := by
        exact (map_sum (AddMonoidAlgebra.singleAddHom 0) _ _).symm
    _ = (Word.weight w : Poly) := by
        rw [sum_coefficient]
        rw [AddMonoidAlgebra.natCast_def]

protected theorem mul_comm (p q : UInt64) : mul p q = mul q p := by
  apply toPoly_injective
  simp only [toPoly_mul]
  ring

protected theorem mul_assoc (p q r : UInt64) : mul (mul p q) r = mul p (mul q r) := by
  apply toPoly_injective
  simp only [toPoly_mul]
  ring

@[simp]
protected theorem one_mul (v : UInt64) : mul 1 v = v := by
  apply toPoly_injective
  simp

theorem mul_xor (p v w : UInt64) : mul p (v ^^^ w) = mul p v ^^^ mul p w := by
  apply toPoly_injective
  simp only [toPoly_mul, toPoly_xor]
  ring

theorem xor_mul (p q v : UInt64) : mul (p ^^^ q) v = mul p v ^^^ mul q v := by
  apply toPoly_injective
  simp only [toPoly_mul, toPoly_xor]
  ring

@[simp]
protected theorem mul_one (v : UInt64) : mul v 1 = v := by
  rw [RotationRing.mul_comm]
  rw [RotationRing.one_mul]

@[simp]
theorem monomial_mul (k : Nat) (v : UInt64) : mul (monomial k) v = Word.rotl v k := by
  apply toPoly_injective
  simp

theorem toPoly_inverse_go (n : Nat) (q acc : UInt64) :
    toPoly (inverse.go n q acc)
      =
    toPoly acc * ∏ i ∈ Finset.range n, (1 + toPoly q ^ 2 ^ i) := by
  induction n generalizing q acc with
  | zero => simp [inverse.go]
  | succ n ih =>
    have htail : ∏ i ∈ Finset.range n, (1 + toPoly (mul q q) ^ 2 ^ i)
        = ∏ i ∈ Finset.range n, (1 + toPoly q ^ 2 ^ (i + 1)) := by
      apply Finset.prod_congr rfl
      intro i _
      rw [toPoly_mul]
      ring
    rw [inverse.go]
    rw [ih]
    rw [htail]
    rw [Finset.prod_range_succ']
    simp only [toPoly_mul, toPoly_xor, toPoly_one]
    ring

theorem one_add_mul_prod (q : Poly) (n : Nat) :
    (1 + q) * ∏ i ∈ Finset.range n, (1 + q ^ 2 ^ i) = 1 + q ^ 2 ^ n := by
  induction n with
  | zero => simp
  | succ n ih =>
    rw [Finset.prod_range_succ]
    rw [← mul_assoc]
    rw [ih]
    rw [CharTwo.add_mul_self]
    ring

theorem natCast_eq_iff (m n : Nat) : (m : Poly) = n ↔ m % 2 = n % 2 :=
  CharP.natCast_eq_natCast Poly 2

theorem toPoly_pow_64_eq_one {p : UInt64} (h : Word.weight p % 2 = 1) : toPoly p ^ 64 = 1 := by
  rw [toPoly_pow_64]
  rw [← Nat.cast_one]
  rw [natCast_eq_iff]
  exact h

theorem toPoly_pow_64_eq_zero {p : UInt64} (h : Word.weight p % 2 = 0) : toPoly p ^ 64 = 0 := by
  rw [toPoly_pow_64]
  rw [← Nat.cast_zero]
  rw [natCast_eq_iff]
  exact h

theorem mul_inverse {p : UInt64} (h : Word.weight p % 2 = 1) : mul p (inverse p) = 1 := by
  have hnilpotent : toPoly (p ^^^ 1) ^ 64 = 0 := by
    rw [toPoly_xor]
    rw [toPoly_one]
    rw [add_pow_64]
    rw [toPoly_pow_64_eq_one h]
    rw [one_pow]
    exact CharTwo.add_self_eq_zero 1
  have hp : toPoly p = 1 + toPoly (p ^^^ 1) := by
    rw [toPoly_xor]
    rw [toPoly_one]
    rw [add_comm (toPoly p)]
    exact (CharTwo.add_cancel_left 1 _).symm
  apply toPoly_injective
  rw [toPoly_mul]
  rw [inverse]
  rw [toPoly_inverse_go]
  rw [toPoly_one]
  rw [one_mul]
  rw [hp]
  rw [one_add_mul_prod]
  rw [show 2 ^ 6 = 64 by rfl]
  rw [hnilpotent]
  rw [add_zero]

theorem inverse?_eq_some {p : UInt64} (h : Word.weight p % 2 = 1) :
    inverse? p = some (inverse p) := by
  unfold inverse?
  rw [if_neg]
  omega

theorem toPoly_foldl_monomial (amounts : List UInt32) (p : UInt64) :
    toPoly (amounts.foldl (fun p r => p ^^^ monomial r.toNat) p)
      =
    toPoly p + (amounts.map fun r => (.single (r.toNat : ZMod 64) 1 : Poly)).sum := by
  induction amounts generalizing p with
  | nil => simp
  | cons r amounts ih =>
    rw [List.foldl_cons]
    rw [ih]
    simp [add_assoc]

theorem toPoly_ofAmounts (amounts : List UInt32) :
    toPoly (ofAmounts amounts)
      =
    (amounts.map fun r => (.single (r.toNat : ZMod 64) 1 : Poly)).sum := by
  simp [ofAmounts, toPoly_foldl_monomial]

theorem coefficient_ofAmounts (amounts : List UInt32) (k : ZMod 64) :
    coefficient (ofAmounts amounts) k
      =
    (amounts.countP fun r => r.toNat % 64 = k.val : Nat) := by
  rw [← coeff_toPoly]
  rw [toPoly_ofAmounts]
  induction amounts with
  | nil => simp
  | cons r amounts ih =>
    have hr : (r.toNat : ZMod 64) = k ↔ r.toNat % 64 = k.val := by
      rw [← ZMod.val_natCast]
      exact (ZMod.val_injective 64).eq_iff.symm
    rw [List.map_cons]
    rw [List.sum_cons]
    rw [AddMonoidAlgebra.coeff_add]
    rw [Finsupp.add_apply]
    rw [ih]
    rw [AddMonoidAlgebra.coeff_single]
    rw [Finsupp.single_apply]
    rw [List.countP_cons]
    rw [Nat.cast_add]
    rw [add_comm]
    simp [hr]

theorem getLsbD_ofAmounts (amounts : List UInt32) (k : Nat) (hk : k < 64) :
    (ofAmounts amounts).toBitVec.getLsbD k = true
      ↔
    amounts.countP (·.toNat % 64 = k) % 2 = 1 := by
  have hcoefficient := coefficient_ofAmounts amounts k
  unfold coefficient at hcoefficient
  rw [ZMod.val_natCast_of_lt hk] at hcoefficient
  rw [← Nat.odd_iff]
  rw [← ZMod.natCast_eq_one_iff_odd]
  rw [← hcoefficient]
  simp

theorem ofAmounts_eq_iff (as bs : List UInt32) :
    ofAmounts as = ofAmounts bs
      ↔
    ∀ k < 64, as.countP (·.toNat % 64 = k) % 2 = bs.countP (·.toNat % 64 = k) % 2 := by
  have hcount (k : ZMod 64) : coefficient (ofAmounts as) k = coefficient (ofAmounts bs) k
      ↔ as.countP (·.toNat % 64 = k.val) % 2 = bs.countP (·.toNat % 64 = k.val) % 2 := by
    rw [coefficient_ofAmounts]
    rw [coefficient_ofAmounts]
    exact ZMod.natCast_eq_natCast_iff' _ _ 2
  constructor
  . intro h k hk
    have := (hcount k).mp (by rw [h])
    rw [ZMod.val_natCast_of_lt hk] at this
    exact this
  . intro h
    apply toPoly_injective
    ext k
    simpa using (hcount k).mpr (h k.val k.val_lt)

theorem foldl_rotl (amounts : List UInt32) (init v : UInt64) :
    amounts.foldl (fun sum r => sum ^^^ Word.rotl v r.toNat) init
      =
    init ^^^ mul (ofAmounts amounts) v := by
  apply toPoly_injective
  simp only [toPoly_xor, toPoly_mul, toPoly_ofAmounts]
  induction amounts generalizing init with
  | nil => simp
  | cons r amounts ih =>
    rw [List.foldl_cons]
    rw [ih]
    simp only [toPoly_xor, toPoly_rotl, List.map_cons, List.sum_cons]
    ring

theorem toPoly_ofAmounts_pow_64 (amounts : List UInt32) :
    toPoly (ofAmounts amounts) ^ 64 = (amounts.length : Poly) := by
  rw [toPoly_ofAmounts]
  induction amounts with
  | nil => simp
  | cons r amounts ih =>
    rw [List.map_cons]
    rw [List.sum_cons]
    rw [add_pow_64]
    rw [single_pow_64]
    rw [← AddMonoidAlgebra.one_def]
    rw [ih]
    rw [List.length_cons]
    rw [Nat.cast_succ]
    ring

end RotationRing

end EpochCipher
