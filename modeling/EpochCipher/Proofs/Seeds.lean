import EpochCipher.Proofs.Generator
import Mathlib.Algebra.Ring.Parity

/-!
This module contains the proof that different seeds never give the same sequence of draws. The
factor between a seed and the state is odd, so that the states stay apart. The draws show the high
halves of the states only. For them, a number of draws is chosen after which the factor has turned
the difference of the seeds into the same difference plus `2 ^ 63`.
-/

namespace EpochCipher

namespace Generator

theorem current_modEq (seed : UInt32) (k : Nat) :
    (advance k (ofSeed seed)).current.toNat
      ≡ jumpMultiplicand (k * (k + 1) / 2) * seed.toNat + jumpAddend (k * (k + 1) / 2)
      [MOD 2 ^ 64] := by
  rw [current_advance]
  apply iterate_baseMap

theorem coprime_jumpMultiplicand (n : Nat) : Nat.Coprime (2 ^ 64) (jumpMultiplicand n) := by
  unfold jumpMultiplicand
  apply Nat.Coprime.pow
  rw [Nat.coprime_two_left]
  decide

theorem current_advance_ne {seed seed' : UInt32} (h : seed ≠ seed') (k : Nat) :
    (advance k (ofSeed seed)).current ≠ (advance k (ofSeed seed')).current := by
  intro hcurrent
  have hjump := current_modEq seed k
  rw [hcurrent] at hjump
  have hproducts := (hjump.symm.trans (current_modEq seed' k)).add_right_cancel'
  have hseeds := Nat.ModEq.cancel_left_of_coprime (coprime_jumpMultiplicand _) hproducts
  have hlt : seed.toNat < 2 ^ 32 := seed.toNat_lt
  have hlt' : seed'.toNat < 2 ^ 32 := seed'.toNat_lt
  apply h
  apply UInt32.toNat_inj.mp
  exact hseeds.eq_of_lt_of_lt (by omega) (by omega)

theorem pow_odd_mod_eight {b : Nat} (h : b % 8 = 5) (j : Nat) : b ^ (2 * j + 1) % 8 = 5 := by
  induction j with
  | zero => simpa using h
  | succ j ih =>
    have hpow : b ^ (2 * (j + 1) + 1) = b ^ (2 * j + 1) * b * b := by ring
    rw [hpow]
    rw [Nat.mul_mod]
    rw [Nat.mul_mod _ b]
    rw [ih]
    rw [h]

theorem pow_two_pow_eq {b : Nat} (h : b % 8 = 5) (e : Nat) :
    ∃ c, b ^ 2 ^ e = 1 + 2 ^ (e + 2) * (2 * c + 1) := by
  induction e with
  | zero =>
    refine ⟨b / 8, ?_⟩
    rw [Nat.pow_zero]
    rw [Nat.pow_one]
    omega
  | succ e ih =>
    rcases ih with ⟨c, hc⟩
    refine ⟨c + 2 ^ e * (2 * c + 1) ^ 2, ?_⟩
    rw [Nat.pow_succ]
    rw [Nat.pow_mul]
    rw [hc]
    ring

theorem jumpMultiplicand_eq (e j : Nat) :
    ∃ c, jumpMultiplicand ((2 * j + 1) * 2 ^ e) = 1 + 2 ^ (e + 2) * (2 * c + 1) := by
  unfold jumpMultiplicand
  rw [Nat.pow_mul]
  apply pow_two_pow_eq
  apply pow_odd_mod_eight
  rfl

theorem jumpMultiplicand_mul_modEq {e v m : Nat} (h : e + v = 61) (hm : Odd m) (j : Nat) :
    jumpMultiplicand ((2 * j + 1) * 2 ^ e) * (2 ^ v * m) ≡ 2 ^ v * m + 2 ^ 63 [MOD 2 ^ 64] := by
  rcases jumpMultiplicand_eq e j with ⟨c, hc⟩
  rcases hm with ⟨w, rfl⟩
  have htop : 2 ^ (e + 2) * 2 ^ v = 2 ^ 63 := by
    rw [← Nat.pow_add]
    rw [show e + 2 + v = 63 by omega]
  have hproduct : jumpMultiplicand ((2 * j + 1) * 2 ^ e) * (2 ^ v * (2 * w + 1))
      = 2 ^ v * (2 * w + 1) + 2 ^ 63 + 2 ^ 64 * (2 * c * w + c + w) := by
    calc jumpMultiplicand ((2 * j + 1) * 2 ^ e) * (2 ^ v * (2 * w + 1))
      _ = 2 ^ v * (2 * w + 1) + 2 ^ (e + 2) * 2 ^ v * ((2 * c + 1) * (2 * w + 1)) := by
          rw [hc]
          ring
      _ = 2 ^ v * (2 * w + 1) + 2 ^ 63 + 2 ^ 64 * (2 * c * w + c + w) := by
          rw [htop]
          ring
  rw [hproduct]
  unfold Nat.ModEq
  rw [Nat.add_mul_mod_self_left]

theorem exists_jumpMultiplicand_mul_modEq {d : Nat} (hpos : 0 < d) (hlt : d < 2 ^ 32) :
    ∃ k < 2 ^ 62,
      jumpMultiplicand ((k + 1) * (k + 1 + 1) / 2) * d ≡ d + 2 ^ 63 [MOD 2 ^ 64] := by
  rcases Nat.exists_eq_two_pow_mul_odd (Nat.pos_iff_ne_zero.mp hpos) with ⟨v, m, hm, hd⟩
  have hpow : 2 ^ v < 2 ^ 32 := by
    have := Nat.le_mul_of_pos_right (2 ^ v) hm.pos
    omega
  have hv : v < 32 := (Nat.pow_lt_pow_iff_right (by decide)).mp hpow
  -- Twice `2 ^ e` draws make `2 ^ e * (2 * 2 ^ e + 1)` steps.
  let e := 61 - v
  have hle : 2 ^ e ≤ 2 ^ 61 := Nat.pow_le_pow_right (by decide) (by omega)
  have hone : 1 ≤ 2 ^ e := Nat.one_le_two_pow
  have hsteps : (2 * 2 ^ e - 1 + 1) * (2 * 2 ^ e - 1 + 1 + 1) / 2
      = (2 * 2 ^ e + 1) * 2 ^ e := by
    rw [Nat.sub_add_cancel (by omega)]
    rw [Nat.mul_assoc]
    rw [Nat.mul_div_cancel_left _ (by decide)]
    rw [Nat.mul_comm]
  refine ⟨2 * 2 ^ e - 1, by omega, ?_⟩
  rw [hsteps]
  rw [hd]
  exact jumpMultiplicand_mul_modEq (by omega) hm (2 ^ e)

theorem output_ne {g g' : Generator} {d : Nat} (hd : d < 2 ^ 32)
    (h : g'.current.toNat ≡ g.current.toNat + (d + 2 ^ 63) [MOD 2 ^ 64]) :
    g.output ≠ g'.output := by
  intro houtput
  have hlt : g.current.toNat < 2 ^ 64 := g.current.toNat_lt
  have hlt' : g'.current.toNat < 2 ^ 64 := g'.current.toNat_lt
  have hhalves := congrArg UInt32.toNat houtput
  simp only [toNat_output] at hhalves
  unfold Nat.ModEq at h
  omega

theorem exists_output_ne_of_lt {seed seed' : UInt32} (h : seed.toNat < seed'.toNat) :
    ∃ k < 2 ^ 62,
      (advance (k + 1) (ofSeed seed)).output ≠ (advance (k + 1) (ofSeed seed')).output := by
  have hlt : seed'.toNat < 2 ^ 32 := seed'.toNat_lt
  rcases exists_jumpMultiplicand_mul_modEq (d := seed'.toNat - seed.toNat) (by omega) (by omega)
    with ⟨k, hk, hflip⟩
  refine ⟨k, hk, ?_⟩
  apply output_ne (d := seed'.toNat - seed.toNat) (by omega)
  apply (current_modEq seed' (k + 1)).trans
  have hseed : seed'.toNat = seed.toNat + (seed'.toNat - seed.toNat) := by omega
  generalize seed'.toNat - seed.toNat = d at hflip hseed ⊢
  rw [hseed]
  rw [Nat.mul_add]
  rw [Nat.add_right_comm]
  exact (current_modEq seed (k + 1)).symm.add hflip

theorem exists_output_ne {seed seed' : UInt32} (h : seed ≠ seed') :
    ∃ k < 2 ^ 62,
      (advance (k + 1) (ofSeed seed)).output ≠ (advance (k + 1) (ofSeed seed')).output := by
  have hne : seed.toNat ≠ seed'.toNat := fun heq => h (UInt32.toNat_inj.mp heq)
  cases Nat.lt_or_gt_of_ne hne with
  | inl hlt => exact exists_output_ne_of_lt hlt
  | inr hgt =>
    rcases exists_output_ne_of_lt hgt with ⟨k, hk, houtput⟩
    exact ⟨k, hk, houtput.symm⟩

end Generator

namespace Draw

open Generator

theorem distinct_seeds_never_merge (seed seed' : UInt32) (h : seed ≠ seed') :
    (∀ k, ((Vector.ofFnM fun _ : Fin k => next).run (ofSeed seed)).2.current
        ≠
      ((Vector.ofFnM fun _ : Fin k => next).run (ofSeed seed')).2.current)
      ∧ ∃ k < 2 ^ 62,
        ((Vector.ofFnM fun _ : Fin (k + 1) => next).eval (ofSeed seed)).get (Fin.last k)
          ≠
        ((Vector.ofFnM fun _ : Fin (k + 1) => next).eval (ofSeed seed')).get (Fin.last k) := by
  constructor
  . intro k
    simp only [run_ofFnM_next]
    exact current_advance_ne h k
  . rcases exists_output_ne h with ⟨k, hk, houtput⟩
    refine ⟨k, hk, ?_⟩
    rw [eval_eq]
    rw [eval_eq]
    simp only [run_ofFnM_next]
    simpa [Vector.get_eq_getElem] using houtput

theorem distinct_seeds_never_merge_highest_bit :
    (0 : UInt32) ≠ 2147483648
      ∧ (∀ k, ((Vector.ofFnM fun _ : Fin k => next).run (ofSeed 0)).2.current
          ≠
        ((Vector.ofFnM fun _ : Fin k => next).run (ofSeed 2147483648)).2.current)
      ∧ ∃ k < 2 ^ 62,
        ((Vector.ofFnM fun _ : Fin (k + 1) => next).eval (ofSeed 0)).get (Fin.last k)
          ≠
        ((Vector.ofFnM fun _ : Fin (k + 1) => next).eval (ofSeed 2147483648)).get (Fin.last k) := by
  have h : (0 : UInt32) ≠ 2147483648 := by decide
  exact ⟨h, distinct_seeds_never_merge 0 2147483648 h⟩

end Draw

end EpochCipher
