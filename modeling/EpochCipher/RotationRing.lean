import EpochCipher.Word

/-!
This module contains the ring of rotations.

A word is read as a polynomial over the two-element field in which `x ^ k` stands for the rotation
to the left by `k` bits. A sum of rotations of a word is then a product in the ring of polynomials
modulo `x ^ 64 + 1`, and the composition of two such sums is the product of their polynomials.
-/

namespace EpochCipher

namespace RotationRing

def monomial (k : Nat) : UInt64 :=
  1 <<< UInt64.ofNat k

/-- The sum of the rotations by the given amounts. Equal amounts modulo 64 cancel in pairs. -/
def ofAmounts (amounts : List UInt32) : UInt64 :=
  amounts.foldl (fun p r => p ^^^ monomial r.toNat) 0

def degree (p : UInt64) : Nat :=
  p.log2.toNat

def tail (p : UInt64) : UInt64 :=
  p ^^^ monomial (degree p)

theorem degree_eq_log2 (p : UInt64) : degree p = p.toNat.log2 := rfl

@[simp]
theorem toBitVec_monomial (k : Nat) : (monomial k).toBitVec = BitVec.twoPow 64 (k % 64) := by
  simp [monomial, BitVec.twoPow_eq]

theorem toNat_monomial {k : Nat} (h : k < 64) : (monomial k).toNat = 1 <<< k := by
  have hlt : 2 ^ k < 2 ^ 64 := Nat.pow_lt_pow_right (by decide) h
  rw [← UInt64.toNat_toBitVec]
  rw [toBitVec_monomial]
  rw [Nat.mod_eq_of_lt h]
  rw [BitVec.toNat_twoPow]
  rw [Nat.one_shiftLeft]
  exact Nat.mod_eq_of_lt hlt

theorem degree_lt (p : UInt64) : degree p < 64 := by
  rw [degree_eq_log2]
  by_cases h : p.toNat = 0
  . simp [h]
  . exact (Nat.log2_lt h).mpr p.toNat_lt

theorem toNat_ne_zero {p : UInt64} (h : p ≠ 0) : p.toNat ≠ 0 := by
  intro hp
  apply h
  apply UInt64.toNat_inj.mp
  simpa using hp

theorem toNat_tail_lt_shift {p : UInt64} (h : p ≠ 0) : (tail p).toNat < 1 <<< degree p := by
  have hp := toNat_ne_zero h
  rw [tail]
  rw [UInt64.toNat_xor]
  rw [toNat_monomial (degree_lt p)]
  rw [degree_eq_log2]
  rw [Nat.one_shiftLeft]
  apply Nat.lt_pow_two_of_testBit
  intro i hi
  rw [Nat.testBit_xor]
  by_cases heq : p.toNat.log2 = i
  . subst heq
    simp [Nat.testBit_log2 hp]
  . have hlt : p.toNat < 2 ^ i := (Nat.log2_lt hp).mp (by omega)
    simp [Nat.testBit_two_pow_of_ne heq, Nat.testBit_lt_two_pow hlt]

theorem toNat_tail_lt {p : UInt64} (h : p ≠ 0) : (tail p).toNat < p.toNat := by
  have hp := toNat_ne_zero h
  have hlt := toNat_tail_lt_shift h
  rw [degree_eq_log2] at hlt
  rw [Nat.one_shiftLeft] at hlt
  exact Nat.lt_of_lt_of_le hlt (Nat.log2_self_le hp)

/--
The product of two polynomials: the sum of the rotations of `v` by the exponents of `p`. The terms
of `p` are taken off one by one, the leading term first.
-/
def mul (p v : UInt64) : UInt64 :=
  go p 0
where
  go (terms acc : UInt64) : UInt64 :=
    if terms = 0 then
      acc
    else
      go (tail terms) (acc ^^^ Word.rotl v (degree terms))
  termination_by terms.toNat
  decreasing_by exact toNat_tail_lt (by assumption)

theorem mul.go_eq (v terms acc : UInt64) : mul.go v terms acc = acc ^^^ mul.go v terms 0 := by
  by_cases h : terms = 0
  . simp [mul.go, h]
  . rw [mul.go]
    rw [if_neg h]
    rw [mul.go_eq v (tail terms)]
    conv =>
      rhs
      rw [mul.go]
      rw [if_neg h]
      rw [mul.go_eq v (tail terms)]
    simp [UInt64.xor_assoc]
termination_by terms.toNat
decreasing_by
  . exact toNat_tail_lt h
  . exact toNat_tail_lt h

@[simp]
protected theorem zero_mul (v : UInt64) : mul 0 v = 0 := by
  simp [mul, mul.go]

theorem mul_eq_rotl_xor_mul_tail {p : UInt64} (h : p ≠ 0) (v : UInt64) :
    mul p v = Word.rotl v (degree p) ^^^ mul (tail p) v := by
  rw [mul]
  rw [mul.go]
  rw [if_neg h]
  rw [mul.go_eq]
  simp [mul]

def pow (p : UInt64) (n : Nat) : UInt64 :=
  Nat.repeat (mul p) n 1

/--
The inverse of a polynomial with an odd number of terms. Such a polynomial is `1 + q` with
`q ^ 64 = 0`, so that `(1 + q) * (1 + q ^ 2) * (1 + q ^ 4) * ... * (1 + q ^ 32)` is its inverse.
-/
def inverse (p : UInt64) : UInt64 :=
  go 6 (p ^^^ 1) 1
where
  go : Nat → UInt64 → UInt64 → UInt64
    | 0, _, acc => acc
    | n + 1, q, acc => go n (mul q q) (mul acc (1 ^^^ q))

def inverse? (p : UInt64) : Option UInt64 :=
  if Word.weight p % 2 = 0 then none else some (inverse p)

@[simp]
protected theorem pow_zero (p : UInt64) : pow p 0 = 1 := rfl

protected theorem pow_succ (p : UInt64) (n : Nat) : pow p (n + 1) = mul p (pow p n) := rfl

end RotationRing

end EpochCipher
