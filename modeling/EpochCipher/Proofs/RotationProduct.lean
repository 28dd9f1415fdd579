import EpochCipher.Proofs.RotationPasses

/-!
This module contains what a product in the ring of rotations is. Bit by bit it is the convolution of
its factors, around the 64 places of a word. The words stand for the residues of the polynomials over
the two-element field modulo `x ^ 64 + 1`, each for its own and all of them taken, and the product of
words is that of the residues.
-/

namespace EpochCipher

namespace RotationRing

theorem coefficient_mul (p v : UInt64) (b : ZMod 64) :
    coefficient (mul p v) b = ∑ k : ZMod 64, coefficient p k * coefficient v (b - k) := by
  rw [← coeff_toPoly]
  rw [toPoly_mul]
  rw [toPoly_eq_sum p]
  rw [Finset.sum_mul]
  rw [AddMonoidAlgebra.coeff_sum]
  rw [Finsupp.finsetSum_apply]
  apply Finset.sum_congr rfl
  intro k _
  rw [AddMonoidAlgebra.coeff_single_mul_apply]
  rw [coeff_toPoly]
  rw [neg_add_eq_sub]

theorem natCast_finFoldl_xor (f : Fin n → Bool) :
    ((Fin.foldl n (fun sum k => sum ^^ f k) false).toNat : ZMod 2) = ∑ k, ((f k).toNat : ZMod 2) := by
  induction n with
  | zero => simp
  | succ n ih =>
    have hxor (a b : Bool) : ((a ^^ b).toNat : ZMod 2) = a.toNat + b.toNat := by
      decide +revert
    rw [Fin.foldl_succ_last]
    rw [hxor]
    rw [ih]
    rw [Fin.sum_univ_castSucc]

theorem natCast_toNat_injective : Function.Injective fun b : Bool => (b.toNat : ZMod 2) := by
  decide

theorem natCast_getLsbD_mul (p v : UInt64) (b : ZMod 64) :
    (((mul p v).toBitVec.getLsbD b.val).toNat : ZMod 2)
      =
    ∑ k : ZMod 64,
      ((p.toBitVec.getLsbD k.val && v.toBitVec.getLsbD (b - k).val).toNat : ZMod 2) := by
  have hand (a b : Bool) : ((a && b).toNat : ZMod 2) = a.toNat * b.toNat := by
    decide +revert
  rw [← coefficient_eq_toNat]
  rw [coefficient_mul]
  apply Finset.sum_congr rfl
  intro k _
  rw [coefficient_eq_toNat]
  rw [coefficient_eq_toNat]
  rw [hand]

theorem getLsbD_mul (p v : UInt64) (b : Fin 64) :
    (mul p v).toBitVec.getLsbD b.val
      =
    Fin.foldl 64 (fun sum k =>
      sum ^^ (p.toBitVec.getLsbD k.val && v.toBitVec.getLsbD (b - k).val)) false := by
  apply natCast_toNat_injective
  dsimp only
  rw [natCast_finFoldl_xor]
  exact natCast_getLsbD_mul p v b

open Polynomial

noncomputable section

def modulus : (ZMod 2)[X] :=
  X ^ 64 + 1

def polynomial (w : UInt64) : (ZMod 2)[X] :=
  ∑ k : Fin 64, C ((w.toBitVec.getLsbD k.val).toNat : ZMod 2) * X ^ k.val

def residue (w : UInt64) : AdjoinRoot modulus :=
  AdjoinRoot.mk modulus (polynomial w)

theorem root_pow_64 : AdjoinRoot.root modulus ^ 64 = 1 := by
  have hzero : AdjoinRoot.mk modulus modulus = 0 := AdjoinRoot.mk_self
  have hmodulus : AdjoinRoot.mk modulus modulus = AdjoinRoot.root modulus ^ 64 + 1 := by
    conv => lhs; arg 2; unfold modulus
    rw [map_add]
    rw [map_pow]
    rw [map_one]
    rw [AdjoinRoot.mk_X]
  have hneg : (-1 : AdjoinRoot modulus) = 1 := by
    rw [← map_one (AdjoinRoot.of modulus)]
    rw [← map_neg]
    rw [show (-1 : ZMod 2) = 1 by decide]
  rw [hmodulus] at hzero
  rw [eq_neg_of_add_eq_zero_left hzero]
  exact hneg

/-- The residue of a polynomial: `x` becomes the root of the modulus. -/
def evaluate : Poly →ₐ[ZMod 2] AdjoinRoot modulus :=
  AddMonoidAlgebra.lift (ZMod 2) (AdjoinRoot modulus) (ZMod 64) {
    toFun := fun k => AdjoinRoot.root modulus ^ k.toAdd.val
    map_one' := pow_zero _
    map_mul' := by
      intro j k
      rw [toAdd_mul]
      rw [ZMod.val_add]
      rw [← pow_eq_pow_mod _ root_pow_64]
      rw [pow_add] }

theorem evaluate_single (k : ZMod 64) (c : ZMod 2) :
    evaluate (.single k c) = AdjoinRoot.mk modulus (C c * X ^ k.val) := by
  unfold evaluate
  rw [AddMonoidAlgebra.lift_single]
  rw [map_mul]
  rw [map_pow]
  rw [AdjoinRoot.mk_X]
  rw [AdjoinRoot.mk_C]
  rw [Algebra.smul_def]
  rfl

@[simp]
theorem evaluate_toPoly (w : UInt64) : evaluate (toPoly w) = residue w := by
  rw [toPoly_eq_sum]
  rw [map_sum]
  unfold residue polynomial
  rw [map_sum]
  apply Finset.sum_congr rfl
  intro k _
  rw [evaluate_single]
  rw [coefficient_eq_toNat]
  rfl

@[simp]
theorem residue_mul (p q : UInt64) : residue (mul p q) = residue p * residue q := by
  rw [← evaluate_toPoly]
  simp

@[simp]
theorem residue_xor (p q : UInt64) : residue (p ^^^ q) = residue p + residue q := by
  rw [← evaluate_toPoly]
  simp

@[simp]
theorem residue_monomial (k : Nat) : residue (monomial k) = AdjoinRoot.root modulus ^ k := by
  rw [← evaluate_toPoly]
  rw [toPoly_monomial]
  rw [evaluate_single]
  rw [C_1]
  rw [one_mul]
  rw [map_pow]
  rw [AdjoinRoot.mk_X]
  rw [ZMod.val_natCast]
  rw [← pow_eq_pow_mod _ root_pow_64]

@[simp]
theorem coeff_polynomial (w : UInt64) (k : Fin 64) :
    (polynomial w).coeff k.val = ((w.toBitVec.getLsbD k.val).toNat : ZMod 2) := by
  unfold polynomial
  rw [finsetSum_coeff]
  simp only [coeff_C_mul, coeff_X_pow]
  simp [Fin.val_inj]

@[simp]
theorem degree_modulus : modulus.degree = 64 := by
  unfold modulus
  rw [← C_1]
  exact degree_X_pow_add_C (by decide) 1

theorem residue_injective : Function.Injective residue := by
  intro v w h
  have hlt : (polynomial v - polynomial w).degree < modulus.degree := by
    rw [degree_modulus]
    exact (degree_sub_le _ _).trans_lt (max_lt (degree_sum_fin_lt _) (degree_sum_fin_lt _))
  have hpolynomial : polynomial v = polynomial w := by
    rw [← sub_eq_zero]
    exact eq_zero_of_dvd_of_degree_lt (AdjoinRoot.mk_eq_mk.mp h) hlt
  apply UInt64.toBitVec_inj.mp
  apply BitVec.eq_of_getLsbD_eq
  intro i hi
  have hcoeff : (polynomial v).coeff i = (polynomial w).coeff i := by rw [hpolynomial]
  apply natCast_toNat_injective
  rw [coeff_polynomial v ⟨i, hi⟩] at hcoeff
  rw [coeff_polynomial w ⟨i, hi⟩] at hcoeff
  exact hcoeff

theorem residue_surjective : Function.Surjective residue := by
  intro r
  induction r using AdjoinRoot.induction_on with
  | ih g =>
    induction g using Polynomial.induction_on' with
    | add f g hf hg =>
      rcases hf with ⟨v, hv⟩
      rcases hg with ⟨w, hw⟩
      refine ⟨v ^^^ w, ?_⟩
      simp [hv, hw]
    | monomial n c =>
      have hc : c = 0 ∨ c = 1 := by
        decide +revert
      rcases hc with rfl | rfl
      . refine ⟨0, ?_⟩
        rw [← evaluate_toPoly]
        simp
      . refine ⟨RotationRing.monomial n, ?_⟩
        simp [monomial_one_right_eq_X_pow]

end

/--
A product takes as many passes as its first factor has terms, from whichever end these are taken, and
the passes from the leading end are those of `mul`. Its bits are a convolution. It is the product of
residues modulo `x ^ 64 + 1`, of which every word is one, and so it has the laws of a commutative
ring; the terms are multiplied modulo two.
-/
theorem mul_is_residue_product (p q r : UInt64) :
    EndsAfter (lowestPass q) p (Word.weight p) (mul p q)
      ∧ EndsAfter (leadingPass q) p (Word.weight p) (mul p q)
      ∧ (∀ terms sum, mul.go q terms sum
        = if terms = 0 then sum else
          mul.go q (leadingPass q (terms, sum)).1 (leadingPass q (terms, sum)).2)
      ∧ (∀ b : Fin 64, (mul p q).toBitVec.getLsbD b.val
        = Fin.foldl 64 (fun sum k =>
          sum ^^ (p.toBitVec.getLsbD k.val && q.toBitVec.getLsbD (b - k).val)) false)
      ∧ Function.Bijective residue
      ∧ residue (p ^^^ q) = residue p + residue q
      ∧ residue (mul p q) = residue p * residue q
      ∧ mul p q = mul q p
      ∧ mul p (mul q r) = mul (mul p q) r
      ∧ mul p (q ^^^ r) = mul p q ^^^ mul p r
      ∧ mul (p ^^^ q) r = mul p r ^^^ mul q r
      ∧ mul 1 p = p
      ∧ mul p 1 = p
      ∧ Word.weight (mul p q) % 2 = Word.weight p % 2 * (Word.weight q % 2) := by
  refine ⟨(takesTerm_lowestPass q).endsAfter, (takesTerm_leadingPass q).endsAfter,
    go_eq_ite_leadingPass q, getLsbD_mul p q, ⟨residue_injective, residue_surjective⟩, residue_xor p q, residue_mul p q,
    RotationRing.mul_comm p q, (RotationRing.mul_assoc p q r).symm, mul_xor p q r, xor_mul p q r,
    RotationRing.one_mul p, RotationRing.mul_one p, ?_⟩
  rw [weight_mul_mod_two]
  rw [Nat.mul_mod]
  rcases Nat.mod_two_eq_zero_or_one (Word.weight p) with hp | hp
  . rw [hp]
    simp
  . rw [hp]
    simp

end RotationRing

end EpochCipher
