import EpochCipher.Generator
import EpochCipher.Proofs.Vector
import Mathlib.Algebra.Ring.GeomSum
import Mathlib.Data.Nat.ModEq
import Mathlib.Logic.Function.Iterate
import Mathlib.RingTheory.ZMod.UnitsCyclic
import Mathlib.Tactic.Ring

/-!
This module contains the relation between the generator and the congruential base map: every draw
jumps one step further than the draw before, so that the draws are the values of the base map at
the triangular numbers.
-/

namespace EpochCipher

namespace Generator

def baseMap (x : Nat) : Nat :=
  (baseMultiplicand.toNat * x + baseAddend.toNat) % 2 ^ 64

def jumpMultiplicand (n : Nat) : Nat :=
  baseMultiplicand.toNat ^ n

def jumpAddend (n : Nat) : Nat :=
  baseAddend.toNat * ∑ j ∈ Finset.range n, baseMultiplicand.toNat ^ j

theorem jumpMultiplicand_succ (n : Nat) :
    jumpMultiplicand (n + 1) = baseMultiplicand.toNat * jumpMultiplicand n := by
  unfold jumpMultiplicand
  rw [Nat.pow_succ']

theorem jumpAddend_succ (n : Nat) :
    jumpAddend (n + 1) = jumpAddend n + baseAddend.toNat * jumpMultiplicand n := by
  unfold jumpAddend jumpMultiplicand
  rw [Finset.sum_range_succ]
  rw [Nat.mul_add]

theorem jumpAddend_succ' (n : Nat) :
    jumpAddend (n + 1) = baseMultiplicand.toNat * jumpAddend n + baseAddend.toNat := by
  unfold jumpAddend
  rw [geom_sum_succ]
  ring

theorem iterate_baseMap (n x : Nat) :
    baseMap^[n] x ≡ jumpMultiplicand n * x + jumpAddend n [MOD 2 ^ 64] := by
  induction n with
  | zero =>
    rw [Function.iterate_zero_apply]
    simp [jumpMultiplicand, jumpAddend, Nat.ModEq]
  | succ n ih =>
    have hstep : jumpMultiplicand (n + 1) * x + jumpAddend (n + 1)
        = baseMultiplicand.toNat * (jumpMultiplicand n * x + jumpAddend n) + baseAddend.toNat := by
      rw [jumpMultiplicand_succ]
      rw [jumpAddend_succ']
      ring
    rw [Function.iterate_succ_apply']
    rw [hstep]
    apply Nat.ModEq.trans (Nat.mod_modEq _ _)
    apply Nat.ModEq.add_right
    exact ih.mul_left _

theorem iterate_baseMap_lt (n : Nat) {x : Nat} (h : x < 2 ^ 64) :
    baseMap^[n] x < 2 ^ 64 := by
  cases n with
  | zero => exact h
  | succ n =>
    rw [Function.iterate_succ_apply']
    exact Nat.mod_lt _ (by decide)

/-- The generator holds the coefficients of `n` steps of the base map. -/
structure Jumps (g : Generator) (n : Nat) : Prop where
  multiplicand_eq : g.multiplicand.toNat = jumpMultiplicand n % 2 ^ 64
  addend_eq : g.addend.toNat = jumpAddend n % 2 ^ 64

theorem jumps_ofSeed (seed : UInt32) : (ofSeed seed).Jumps 0 := by
  constructor
  . simp [ofSeed, jumpMultiplicand]
  . simp [ofSeed, jumpAddend]

theorem Jumps.step {g : Generator} (h : g.Jumps n) : g.step.Jumps (n + 1) := by
  constructor
  . change (baseMultiplicand * g.multiplicand).toNat = _
    rw [UInt64.toNat_mul]
    rw [h.multiplicand_eq]
    rw [Nat.mul_mod_mod]
    rw [jumpMultiplicand_succ]
  . change (g.addend + baseAddend * g.multiplicand).toNat = _
    rw [UInt64.toNat_add]
    rw [UInt64.toNat_mul]
    rw [h.addend_eq]
    rw [h.multiplicand_eq]
    rw [Nat.mul_mod_mod]
    rw [← Nat.add_mod]
    rw [jumpAddend_succ]

theorem Jumps.current_step {g : Generator} (h : g.Jumps n) :
    g.step.current.toNat = baseMap^[n + 1] g.current.toNat := by
  have hcurrent : g.step.current = g.current * g.step.multiplicand + g.step.addend := rfl
  have hlt := iterate_baseMap_lt (n + 1) g.current.toNat_lt
  rw [hcurrent]
  rw [UInt64.toNat_add]
  rw [UInt64.toNat_mul]
  rw [h.step.multiplicand_eq]
  rw [h.step.addend_eq]
  rw [Nat.mul_mod_mod]
  rw [← Nat.add_mod]
  rw [Nat.mul_comm]
  rw [← Nat.mod_eq_of_lt hlt]
  exact (iterate_baseMap (n + 1) g.current.toNat).symm

theorem advance_succ' (n : Nat) (g : Generator) : advance (n + 1) g = (advance n g).step := by
  rw [← advance_advance n 1 g]
  rw [advance_one]

theorem jumps_advance (seed : UInt32) (n : Nat) : (advance n (ofSeed seed)).Jumps n := by
  induction n with
  | zero => exact jumps_ofSeed seed
  | succ n ih =>
    rw [advance_succ']
    exact ih.step

theorem orderOf_baseMultiplicand : orderOf (baseMultiplicand.toNat : ZMod (2 ^ 64)) = 2 ^ 62 := by
  -- One more than four times an odd number: its order modulo a power of two is as large as can be.
  have h : (baseMultiplicand.toNat : ZMod (2 ^ 64)) = 1 + 4 * (1591034055961698251 : Int) := by
    rw [show baseMultiplicand.toNat = 1 + 4 * 1591034055961698251 by rfl]
    push_cast
    rfl
  rw [h]
  exact ZMod.orderOf_one_add_four_mul _ (by decide) 62

theorem advance_ofSeed_injOn (seed : UInt32) :
    Set.InjOn (fun n => advance n (ofSeed seed)) (Set.Iio (2 ^ 62)) := by
  intro m hm n hn h
  have hmultiplicand : jumpMultiplicand m % 2 ^ 64 = jumpMultiplicand n % 2 ^ 64 := by
    rw [← (jumps_advance seed m).multiplicand_eq]
    rw [← (jumps_advance seed n).multiplicand_eq]
    exact congrArg (fun g => g.multiplicand.toNat) h
  rw [← orderOf_baseMultiplicand] at hm hn
  apply pow_injOn_Iio_orderOf hm hn
  rw [← ZMod.natCast_eq_natCast_iff'] at hmultiplicand
  simpa [jumpMultiplicand] using hmultiplicand

theorem triangular_succ (n : Nat) :
    (n + 1) * (n + 1 + 1) / 2 = (n + 1) + n * (n + 1) / 2 := by
  have h : (n + 1) * (n + 1 + 1) = n * (n + 1) + 2 * (n + 1) := by ring
  rw [h]
  rw [Nat.add_mul_div_left _ _ (by decide)]
  rw [Nat.add_comm]

theorem current_advance (seed : UInt32) (n : Nat) :
    (advance n (ofSeed seed)).current.toNat = baseMap^[n * (n + 1) / 2] seed.toNat := by
  induction n with
  | zero => simp [ofSeed]
  | succ n ih =>
    -- Draw `n + 1` adds `n + 1` steps to the triangular number of steps made so far.
    rw [advance_succ']
    rw [(jumps_advance seed n).current_step]
    rw [ih]
    rw [triangular_succ]
    rw [← Function.iterate_add_apply]

@[simp]
theorem toNat_output (g : Generator) : g.output.toNat = g.current.toNat / 2 ^ 32 := by
  have h : g.current.toNat < 2 ^ 64 := g.current.toNat_lt
  have hquotient : g.current.toNat / 2 ^ 32 < 2 ^ 32 := by omega
  unfold output
  rw [UInt64.toNat_toUInt32]
  rw [UInt64.toNat_shiftRight]
  rw [show (32 : UInt64).toNat % 64 = 32 by rfl]
  rw [Nat.shiftRight_eq_div_pow]
  exact Nat.mod_eq_of_lt hquotient

end Generator

namespace Draw

@[simp]
theorem run_ofFnM_next (n : Nat) (g : Generator) :
    (Vector.ofFnM fun _ : Fin n => next).run g
      =
    (Vector.ofFn fun i => (Generator.advance (i + 1) g).output, Generator.advance n g) := by
  rw [run_ofFnM (k := 1) fun _ _ => rfl]
  simp [Generator.advance_succ']

open Generator

theorem draws_at_triangular_numbers (seed : UInt32) (k : Nat) :
    ∃ outputs g, (Vector.ofFnM fun _ : Fin k => next).run (ofSeed seed) = (outputs, g)
      ∧ g.current.toNat = baseMap^[k * (k + 1) / 2] seed.toNat
      ∧ g.multiplicand.toNat = baseMultiplicand.toNat ^ k % 2 ^ 64
      ∧ g.addend.toNat
        = baseAddend.toNat * (∑ j ∈ Finset.range k, baseMultiplicand.toNat ^ j) % 2 ^ 64
      ∧ ∀ i : Fin k,
        (outputs.get i).toNat
          =
        baseMap^[(i.val + 1) * (i.val + 1 + 1) / 2] seed.toNat / 2 ^ 32 := by
  refine ⟨_, _, run_ofFnM_next k (ofSeed seed), ?_, ?_, ?_, ?_⟩
  . exact current_advance seed k
  . exact (jumps_advance seed k).multiplicand_eq
  . exact (jumps_advance seed k).addend_eq
  . intro i
    rw [Vector.get_eq_getElem]
    rw [Vector.getElem_ofFn]
    rw [toNat_output]
    rw [current_advance]

end Draw

end EpochCipher
