import EpochCipher.Proofs.RotationRing

/-!
This module contains the units of the ring of rotations: they are the polynomials with an odd number
of terms, the inverse computed for them is the only one, and the other polynomials do not even allow
to take a product back.
-/

namespace EpochCipher

namespace RotationRing

theorem weight_mul_mod_two (p q : UInt64) :
    Word.weight (mul p q) % 2 = Word.weight p * Word.weight q % 2 := by
  -- The 64th power counts the terms, and it is multiplicative.
  rw [← natCast_eq_iff]
  rw [Nat.cast_mul]
  rw [← toPoly_pow_64]
  rw [← toPoly_pow_64]
  rw [← toPoly_pow_64]
  rw [toPoly_mul]
  rw [mul_pow]

theorem weight_mod_two_of_mul_eq_one {p q : UInt64} (h : mul q p = 1) :
    Word.weight p % 2 = 1 := by
  have hweight := weight_mul_mod_two q p
  rw [h] at hweight
  have hodd : Odd (Word.weight q * Word.weight p) := Nat.odd_iff.mpr hweight.symm
  exact Nat.odd_iff.mp (Nat.odd_mul.mp hodd).right

theorem mul_mul_eq_of_mul_eq_one {p q : UInt64} (h : mul p q = 1) (v : UInt64) :
    mul p (mul q v) = v := by
  rw [← RotationRing.mul_assoc]
  rw [h]
  rw [RotationRing.one_mul]

theorem inverse_mul {p : UInt64} (h : Word.weight p % 2 = 1) : mul (inverse p) p = 1 := by
  rw [RotationRing.mul_comm]
  exact mul_inverse h

theorem mul_eq_one_iff {p : UInt64} (h : Word.weight p % 2 = 1) (q : UInt64) :
    mul q p = 1 ↔ q = inverse p := by
  constructor
  . intro hq
    calc q
      _ = mul 1 q := (RotationRing.one_mul q).symm
      _ = mul (mul (inverse p) p) q := by rw [inverse_mul h]
      _ = mul (inverse p) (mul q p) := by
          rw [RotationRing.mul_assoc]
          rw [RotationRing.mul_comm p]
      _ = inverse p := by
          rw [hq]
          rw [RotationRing.mul_comm]
          rw [RotationRing.one_mul]
  . intro hq
    rw [hq]
    exact inverse_mul h

theorem inverse?_eq_none {p : UInt64} (h : Word.weight p % 2 = 0) : inverse? p = none := by
  unfold inverse?
  rw [if_pos h]

theorem mul_injective_iff (p : UInt64) :
    Function.Injective (mul p) ↔ Word.weight p % 2 = 1 := by
  constructor
  . intro hinj
    -- There are finitely many words, so that one of them is taken to 1.
    rcases Finite.injective_iff_surjective.mp hinj 1 with ⟨q, hq⟩
    rw [RotationRing.mul_comm] at hq
    exact weight_mod_two_of_mul_eq_one hq
  . intro h
    have hleft : Function.LeftInverse (mul (inverse p)) (mul p) :=
      mul_mul_eq_of_mul_eq_one (inverse_mul h)
    exact hleft.injective

theorem inverse?_decides_units (p : UInt64) :
    (Word.weight p % 2 = 1 → ∃ q, inverse? p = some q
        ∧ (∀ v, mul q (mul p v) = v ∧ mul p (mul q v) = v)
        ∧ ∀ r, mul r p = 1 ↔ r = q)
      ∧ (Word.weight p % 2 = 0 → inverse? p = none
        ∧ (∀ q, mul q p ≠ 1)
        ∧ ¬Function.Injective (mul p)) := by
  constructor
  . intro hodd
    refine ⟨inverse p, inverse?_eq_some hodd, ?_, mul_eq_one_iff hodd⟩
    intro v
    constructor
    . exact mul_mul_eq_of_mul_eq_one (inverse_mul hodd) v
    . exact mul_mul_eq_of_mul_eq_one (mul_inverse hodd) v
  . intro heven
    refine ⟨inverse?_eq_none heven, ?_, ?_⟩
    . intro q hq
      have hodd := weight_mod_two_of_mul_eq_one hq
      omega
    . intro hinj
      have hodd := (mul_injective_iff p).mp hinj
      omega

theorem inverse?_decides_units_extreme :
    (Word.weight 0x8000000000000003 % 2 = 1
        ∧ ∃ q, inverse? 0x8000000000000003 = some q
          ∧ (∀ v, mul q (mul 0x8000000000000003 v) = v ∧ mul 0x8000000000000003 (mul q v) = v)
          ∧ ∀ r, mul r 0x8000000000000003 = 1 ↔ r = q)
      ∧ Word.weight 0xffffffffffffffff % 2 = 0
      ∧ inverse? 0xffffffffffffffff = none
      ∧ (∀ q, mul q 0xffffffffffffffff ≠ 1)
      ∧ ¬Function.Injective (mul 0xffffffffffffffff) := by
  have hodd : Word.weight 0x8000000000000003 % 2 = 1 := by decide
  have heven : Word.weight 0xffffffffffffffff % 2 = 0 := by decide
  exact ⟨⟨hodd, (inverse?_decides_units _).left hodd⟩,
    heven, (inverse?_decides_units _).right heven⟩

end RotationRing

end EpochCipher
