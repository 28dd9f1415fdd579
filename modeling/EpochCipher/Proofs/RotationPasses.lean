import EpochCipher.Proofs.RotationUnits

/-!
This module contains the passes of a product. Each of them takes one term off, so that there are as
many passes as terms, and the order in which the terms are taken does not show in the sum: the loop
may go from the leading term down, as `mul` does, or from the lowest term up.
-/

namespace EpochCipher

namespace RotationRing

theorem exists_eq_two_pow_mul_odd {n t : Nat} (ht : n.testBit t = true)
    (hlow : ∀ i < t, n.testBit i = false) : ∃ m, n = 2 ^ t * (2 * m + 1) := by
  have hmod : n % 2 ^ t = 0 := by
    apply Nat.eq_of_testBit_eq
    intro j
    rw [Nat.testBit_mod_two_pow]
    rw [Nat.zero_testBit]
    by_cases hj : j < t
    . simp [hlow j hj]
    . simp [hj]
  have hodd : n / 2 ^ t % 2 = 1 := by
    rw [Nat.testBit_eq_decide_div_mod_eq] at ht
    simpa using ht
  refine ⟨n / 2 ^ t / 2, ?_⟩
  rw [show 2 * (n / 2 ^ t / 2) + 1 = n / 2 ^ t by omega]
  exact (Nat.mul_div_cancel' (Nat.dvd_of_mod_eq_zero hmod)).symm

theorem testBit_and_sub_one {n t : Nat} (ht : n.testBit t = true)
    (hlow : ∀ i < t, n.testBit i = false) (i : Nat) :
    (n &&& (n - 1)).testBit i = (n.testBit i && decide (i ≠ t)) := by
  rw [Nat.testBit_and]
  by_cases hi : i < t
  . simp [hlow i hi]
  . rcases exists_eq_two_pow_mul_odd ht hlow with ⟨m, rfl⟩
    have hpos := Nat.two_pow_pos t
    have hpred : 2 ^ t * (2 * m + 1) - 1 = 2 ^ t * (2 * m) + (2 ^ t - 1) := by
      rw [Nat.mul_add_one]
      omega
    have hupper : (2 ^ t * (2 * m + 1) - 1).testBit i = (2 * m).testBit (i - t) := by
      rw [hpred]
      rw [Nat.testBit_two_pow_mul_add _ (by omega)]
      rw [if_neg hi]
    rw [hupper]
    rw [Nat.testBit_two_pow_mul]
    cases hj : i - t with
    | zero =>
      have heq : i = t := by omega
      simp [heq]
    | succ j =>
      have hne : i ≠ t := by omega
      have hge : t ≤ i := by omega
      rw [Nat.testBit_succ]
      rw [Nat.testBit_succ]
      rw [show (2 * m + 1) / 2 = 2 * m / 2 by omega]
      simp [hne, hge]

def order (p : UInt64) : Nat :=
  p.toBitVec.ctz.toNat

/-- A pass of `mul`: on the terms that are left and the sum so far, it takes the leading term off. -/
def leadingPass (v : UInt64) (s : UInt64 × UInt64) : UInt64 × UInt64 :=
  (tail s.1, s.2 ^^^ Word.rotl v (degree s.1))

def lowestPass (v : UInt64) (s : UInt64 × UInt64) : UInt64 × UInt64 :=
  (s.1 &&& (s.1 - 1), s.2 ^^^ Word.rotl v (order s.1))

/-- Where terms are left, the pass takes one of them off and adds the rotation by its exponent. -/
def TakesTerm (pass : UInt64 × UInt64 → UInt64 × UInt64) (v : UInt64) : Prop :=
  ∀ terms sum, terms ≠ 0 → ∃ k : Fin 64, terms.toBitVec.getLsbD k.val = true
    ∧ pass (terms, sum) = (terms ^^^ monomial k.val, sum ^^^ Word.rotl v k.val)

/-- The loop that repeats the pass ends after `n` passes, with the sum `w`. -/
def EndsAfter (pass : UInt64 × UInt64 → UInt64 × UInt64) (p : UInt64) (n : Nat) (w : UInt64) :
    Prop :=
  IsLeast {m | (pass^[m] (p, 0)).1 = 0} n ∧ (pass^[n] (p, 0)).2 = w

theorem weight_xor_monomial {p : UInt64} {k : Fin 64} (h : p.toBitVec.getLsbD k.val = true) :
    Word.weight (p ^^^ monomial k.val) + 1 = Word.weight p := by
  have hbit (i : Fin 64) : (p.toBitVec.getLsbD i.val).toNat
      = ((p ^^^ monomial k.val).toBitVec.getLsbD i.val).toNat + if i = k then 1 else 0 := by
    rw [UInt64.toBitVec_xor]
    rw [BitVec.getLsbD_xor]
    rw [getLsbD_monomial]
    by_cases hi : i = k
    . subst hi
      rw [h]
      simp
    . simp [hi]
  unfold Word.weight
  rw [countP_range_eq_sum]
  rw [countP_range_eq_sum]
  simp only [hbit]
  rw [Finset.sum_add_distrib]
  simp

theorem weight_eq_zero_iff (p : UInt64) : Word.weight p = 0 ↔ p = 0 := by
  constructor
  . intro h
    apply UInt64.toBitVec_inj.mp
    apply BitVec.eq_of_getLsbD_eq
    intro i hi
    have hclear := List.countP_eq_zero.mp h i (List.mem_range.mpr hi)
    simpa using hclear
  . intro h
    subst h
    decide

theorem getLsbD_degree {p : UInt64} (h : p ≠ 0) : p.toBitVec.getLsbD (degree p) = true := by
  rw [← BitVec.testBit_toNat]
  rw [UInt64.toNat_toBitVec]
  rw [degree_eq_log2]
  exact Nat.testBit_log2 (toNat_ne_zero h)

theorem order_lt {p : UInt64} (h : p ≠ 0) : order p < 64 := by
  have hne : p.toBitVec ≠ 0 := fun heq => h (UInt64.toBitVec_inj.mp heq)
  exact BitVec.lt_def.mp (BitVec.ctz_lt_iff_ne_zero.mpr hne)

theorem getLsbD_order {p : UInt64} (h : p ≠ 0) : p.toBitVec.getLsbD (order p) = true := by
  have hne : p.toBitVec ≠ 0 := fun heq => h (UInt64.toBitVec_inj.mp heq)
  exact BitVec.getLsbD_true_ctz_of_ne_zero hne

theorem and_sub_one_eq_xor_monomial {p : UInt64} (h : p ≠ 0) :
    p &&& (p - 1) = p ^^^ monomial (order p) := by
  have hle : 1 ≤ p.toNat := by
    have := toNat_ne_zero h
    omega
  have hsub : (p - 1).toBitVec.toNat = p.toNat - 1 := by
    rw [UInt64.toNat_toBitVec]
    exact UInt64.toNat_sub_of_le p 1 (UInt64.le_iff_toNat_le.mpr hle)
  apply UInt64.toBitVec_inj.mp
  apply BitVec.eq_of_getLsbD_eq
  intro i hi
  rw [UInt64.toBitVec_and]
  rw [BitVec.getLsbD_and]
  rw [UInt64.toBitVec_xor]
  rw [BitVec.getLsbD_xor]
  rw [getLsbD_monomial ⟨order p, order_lt h⟩ ⟨i, hi⟩]
  have hbits := testBit_and_sub_one (n := p.toNat) (t := order p) ?_ ?_ i
  . rw [Nat.testBit_and] at hbits
    rw [← hsub] at hbits
    rw [← UInt64.toNat_toBitVec] at hbits
    rw [BitVec.testBit_toNat] at hbits
    rw [BitVec.testBit_toNat] at hbits
    rw [hbits]
    by_cases heq : i = order p
    . subst heq
      rw [getLsbD_order h]
      simp
    . simp [heq]
  . exact getLsbD_order h
  . intro j hj
    exact BitVec.getLsbD_false_of_lt_ctz hj

theorem go_eq_ite_leadingPass (v terms sum : UInt64) :
    mul.go v terms sum
      =
    if terms = 0 then
      sum
    else
      mul.go v (leadingPass v (terms, sum)).1 (leadingPass v (terms, sum)).2 := by
  rw [mul.go]
  rfl

theorem takesTerm_leadingPass (v : UInt64) : TakesTerm (leadingPass v) v := by
  intro terms sum h
  exact ⟨⟨degree terms, degree_lt terms⟩, getLsbD_degree h, rfl⟩

theorem takesTerm_lowestPass (v : UInt64) : TakesTerm (lowestPass v) v := by
  intro terms sum h
  refine ⟨⟨order terms, order_lt h⟩, getLsbD_order h, ?_⟩
  unfold lowestPass
  rw [and_sub_one_eq_xor_monomial h]

theorem mul_eq_rotl_xor_mul (p v : UInt64) (k : Nat) :
    mul p v = Word.rotl v k ^^^ mul (p ^^^ monomial k) v := by
  rw [xor_mul]
  rw [monomial_mul]
  rw [UInt64.xor_comm]
  rw [UInt64.xor_assoc]
  simp

/-- What `n` passes for the product of `p` and `v` leave: `n` terms less and the rest of the sum. -/
structure AfterPasses (p v : UInt64) (n : Nat) (s : UInt64 × UInt64) : Prop where
  weight_add : Word.weight s.1 + n = Word.weight p
  sum_xor : s.2 ^^^ mul s.1 v = mul p v

theorem afterPasses_zero (p v : UInt64) : AfterPasses p v 0 (p, 0) := by
  constructor
  . rfl
  . rw [UInt64.zero_xor]

namespace TakesTerm

variable {pass : UInt64 × UInt64 → UInt64 × UInt64} {p v : UInt64} (h : TakesTerm pass v)
include h

theorem afterPasses_succ {n : Nat} {s : UInt64 × UInt64} (hs : AfterPasses p v n s)
    (hn : n < Word.weight p) : AfterPasses p v (n + 1) (pass s) := by
  have hweight := hs.weight_add
  have hne : s.1 ≠ 0 := by
    rw [ne_eq]
    rw [← weight_eq_zero_iff]
    omega
  rcases h s.1 s.2 hne with ⟨k, hk, hpass⟩
  have hless := weight_xor_monomial hk
  rw [hpass]
  constructor
  . dsimp only
    omega
  . dsimp only
    rw [UInt64.xor_assoc]
    rw [← mul_eq_rotl_xor_mul]
    exact hs.sum_xor

theorem afterPasses_iterate (n : Nat) (hn : n ≤ Word.weight p) :
    AfterPasses p v n (pass^[n] (p, 0)) := by
  induction n with
  | zero => exact afterPasses_zero p v
  | succ n ih =>
    rw [Function.iterate_succ_apply']
    exact h.afterPasses_succ (ih (by omega)) (by omega)

theorem endsAfter : EndsAfter pass p (Word.weight p) (mul p v) := by
  have hend := h.afterPasses_iterate (Word.weight p) (Nat.le_refl _)
  have hzero : (pass^[Word.weight p] (p, 0)).1 = 0 := by
    have := hend.weight_add
    rw [← weight_eq_zero_iff]
    omega
  refine ⟨⟨hzero, ?_⟩, ?_⟩
  . intro n hn
    rw [Set.mem_ofPred_eq] at hn
    rw [← weight_eq_zero_iff] at hn
    by_contra hle
    have hlt : n < Word.weight p := by omega
    have := (h.afterPasses_iterate n (Nat.le_of_lt hlt)).weight_add
    omega
  . have hsum := hend.sum_xor
    rw [hzero] at hsum
    rw [RotationRing.zero_mul] at hsum
    rw [UInt64.xor_zero] at hsum
    exact hsum

end TakesTerm

end RotationRing

end EpochCipher
