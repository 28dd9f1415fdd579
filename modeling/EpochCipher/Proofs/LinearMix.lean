import EpochCipher.LinearMix
import EpochCipher.Proofs.RotationUnits
import EpochCipher.Proofs.Vector

/-!
This module contains the proof that the linear mix can be undone, whatever its rotations: one turn
around the circle of words leaves a unit of the ring of rotations on the first word, and every other
word follows from its predecessor.
-/

namespace EpochCipher

namespace State

open RotationRing

theorem getElem_linearMix_mul (rotations : Vector UInt32 6) (x : State) (i j : Nat) (hi : i < 10)
    (hj : j < 10) (h : (i + 1) % 10 = j) :
    (linearMix rotations x)[i] = x[j] ^^^ mul (ofAmounts rotations.toList) x[i] := by
  subst h
  rw [getElem_linearMix]
  rw [← Vector.foldl_toList]
  rw [foldl_rotl]

@[simp]
theorem get_linearMix (rotations : Vector UInt32 6) (x : State) (i : Fin 10) :
    (linearMix rotations x).get i
      =
    x.get (i + 1) ^^^ mul (ofAmounts rotations.toList) (x.get i) :=
  getElem_linearMix_mul rotations x i.val (i + 1).val i.isLt (i + 1).isLt (Fin.val_add i 1).symm

theorem linearMix_as_product :
    (∀ (amounts : List UInt32) (v : UInt64),
      mul (ofAmounts amounts) v = amounts.foldl (fun sum r => sum ^^^ Word.rotl v r.toNat) 0)
      ∧ ∀ (rotations : Vector UInt32 6) (x : State) (i : Fin 10),
        (linearMix rotations x).get i
          =
        x.get (i + 1) ^^^ mul (ofAmounts rotations.toList) (x.get i) := by
  refine ⟨?_, get_linearMix⟩
  intro amounts v
  rw [foldl_rotl]
  rw [UInt64.zero_xor]

theorem weight_circle (amounts : List UInt32) (h : amounts.length % 2 = 0) :
    Word.weight (circle (ofAmounts amounts)) % 2 = 1 := by
  have hlength : (amounts.length : Poly) = 0 := by
    rw [← Nat.cast_zero]
    rw [natCast_eq_iff]
    exact h
  -- The 64th power counts the terms of a sum modulo two.
  have hweight : (Word.weight (circle (ofAmounts amounts)) : Poly) = (1 : Nat) := by
    calc (Word.weight (circle (ofAmounts amounts)) : Poly)
      _ = toPoly (circle (ofAmounts amounts)) ^ 64 := by rw [toPoly_pow_64]
      _ = (1 + toPoly (ofAmounts amounts) ^ 10) ^ 64 := by simp [circle]
      _ = 1 + (toPoly (ofAmounts amounts) ^ 64) ^ 10 := by
          rw [add_pow_64]
          ring
      _ = (1 : Nat) := by
          rw [toPoly_ofAmounts_pow_64]
          rw [hlength]
          simp
  exact (natCast_eq_iff _ _).mp hweight

theorem weight_circle_rotations (rotations : Vector UInt32 6) :
    Word.weight (circle (ofAmounts rotations.toList)) % 2 = 1 := by
  apply weight_circle
  calc rotations.toList.length % 2
    _ = rotationCount % 2 := by rw [Vector.length_toList]
    _ = 0 := rotationCount_even

theorem inverse?_circle (rotations : Vector UInt32 6) :
    inverse? (circle (ofAmounts rotations.toList))
      =
    some (inverse (circle (ofAmounts rotations.toList))) :=
  inverse?_eq_some (weight_circle_rotations rotations)

theorem around_linearMix (rotations : Vector UInt32 6) (x : State) :
    around (ofAmounts rotations.toList) (linearMix rotations x)
      =
    mul (circle (ofAmounts rotations.toList)) x[0] := by
  generalize hr : ofAmounts rotations.toList = r
  rw [around]
  rw [foldl_eq_finFoldl]
  -- The offset before word `k` is that word, up to what `k` steps have made of the first one.
  apply Eq.trans (finFoldl_induction
    (fun k offset => offset = x[k % 10] ^^^ mul (pow r k) x[0]) _ _ ?_ ?_)
  . simp [circle, xor_mul]
  . simp
  . intro i offset h
    have hmod : i.val % 10 = i.val := Nat.mod_eq_of_lt i.isLt
    simp only [hmod] at h
    rw [getElem_linearMix_mul rotations x i.val ((i.val + 1) % 10) i.isLt (by omega) rfl]
    rw [hr]
    rw [h]
    rw [mul_xor]
    rw [← RotationRing.mul_assoc]
    rw [← RotationRing.pow_succ]
    rw [UInt64.xor_assoc]
    rw [← UInt64.xor_assoc (mul r x[i.val])]
    rw [UInt64.xor_self]
    rw [UInt64.zero_xor]

theorem unroll_eq (r : UInt64) (x y : State)
    (h : ∀ (i : Nat) (hi : i < 9), x[i + 1] = y[i] ^^^ mul r x[i]) :
    unroll r x[0] y = x := by
  apply Vector.ext
  intro j hj
  rw [unroll]
  -- The words up to `k` are in place before step `k`.
  refine finFoldl_induction
    (fun k (z : State) => ∀ (j : Nat) (hj : j < 10), j ≤ k → z[j] = x[j]) _ _ ?_ ?_ j hj (by omega)
  . intro j hj hle
    have : j = 0 := by omega
    subst this
    simp
  . intro i z hz j hj hle
    rw [Vector.getElem_set]
    split
    . next heq =>
      subst heq
      rw [h i.val i.isLt]
      rw [hz i.val (by omega) (by omega)]
    . next hne =>
      apply hz
      omega

theorem linearUnmix_eq (rotations : Vector UInt32 6) (y : State) :
    linearUnmix rotations y
      =
    .ok (unroll (ofAmounts rotations.toList)
      (mul (inverse (circle (ofAmounts rotations.toList))) (around (ofAmounts rotations.toList) y))
      y) := by
  unfold linearUnmix
  dsimp
  rw [inverse?_circle]

@[simp]
theorem linearUnmix_linearMix (rotations : Vector UInt32 6) (x : State) :
    linearUnmix rotations (linearMix rotations x) = .ok x := by
  have hfirst : mul (inverse (circle (ofAmounts rotations.toList)))
      (mul (circle (ofAmounts rotations.toList)) x[0]) = x[0] := by
    apply mul_mul_eq_of_mul_eq_one
    exact inverse_mul (weight_circle_rotations rotations)
  rw [linearUnmix_eq]
  rw [around_linearMix]
  rw [hfirst]
  rw [unroll_eq]
  intro i hi
  rw [getElem_linearMix_mul rotations x i (i + 1) (by omega) (by omega) (by omega)]
  rw [UInt64.xor_assoc]
  simp

theorem linearUnmix_inverse (rotations : Vector UInt32 6) (x : State) :
    (∃ solver, inverse? (circle (ofAmounts rotations.toList)) = some solver)
      ∧ linearUnmix rotations (linearMix rotations x) = .ok x
      ∧ ∃ y, linearUnmix rotations x = .ok y ∧ linearMix rotations y = x := by
  refine ⟨⟨_, inverse?_circle rotations⟩, linearUnmix_linearMix rotations x, ?_⟩
  -- There are finitely many states, so that every one of them is the mix of another.
  exact exists_recover (linearUnmix_linearMix rotations) x

end State

end EpochCipher
