import EpochCipher.EpochClock
import Mathlib.Algebra.Order.Ring.Int

/-!
This module contains the proof that the key of an epoch is the one multiple of the interval from
which on the epoch lasts, up to the last of the 32-bit times.
-/

namespace EpochCipher

namespace EpochClock

@[simp]
theorem toNat_keyAt (c : EpochClock) (time : UInt32) :
    (c.keyAt time).toNat = c.interval.toNat * (time.toNat / c.interval.toNat) := by
  have hle : time % c.interval ≤ time := by
    rw [UInt32.le_iff_toNat_le]
    rw [UInt32.toNat_mod]
    apply Nat.mod_le
  have hdiv := Nat.div_add_mod time.toNat c.interval.toNat
  unfold keyAt
  rw [UInt32.toNat_sub_of_le _ _ hle]
  rw [UInt32.toNat_mod]
  omega

theorem interval_pos (c : EpochClock) : 0 < c.interval.toNat := by
  apply Nat.pos_of_ne_zero
  intro hzero
  exact c.interval_ne_zero (UInt32.toNat_inj.mp hzero)

theorem starts_epoch_iff (c : EpochClock) (time : UInt32) (n : Int) :
    (c.interval.toNat : Int) ∣ n ∧ n ≤ time.toNat ∧ time.toNat < n + c.interval.toNat
      ↔
    n = (c.keyAt time).toNat := by
  have hpos : (0 : Int) < c.interval.toNat := Int.natCast_pos.mpr c.interval_pos
  rw [toNat_keyAt]
  rw [Int.natCast_mul]
  rw [Int.natCast_ediv]
  constructor
  . intro ⟨⟨m, hm⟩, hle, hlt⟩
    have hquotient : (time.toNat : Int) / c.interval.toNat = m := by
      rw [Int.ediv_eq_iff_of_pos hpos]
      rw [Int.mul_comm]
      rw [← hm]
      exact ⟨hle, hlt⟩
    rw [hm]
    rw [hquotient]
  . intro hn
    have hdiv := Int.mul_ediv_add_emod time.toNat c.interval.toNat
    have hnonneg := Int.emod_nonneg time.toNat (Int.ne_of_gt hpos)
    have hlt := Int.emod_lt_of_pos time.toNat hpos
    rw [← hn] at hdiv
    refine ⟨?_, ?_, ?_⟩
    . rw [hn]
      apply Int.dvd_mul_right
    . omega
    . omega

theorem ofInterval_eq_ok {interval : UInt32} (h : interval ≠ 0) :
    ofInterval interval = .ok { interval, interval_ne_zero := h } := by
  unfold ofInterval
  rw [dif_neg h]

end EpochClock

end EpochCipher
