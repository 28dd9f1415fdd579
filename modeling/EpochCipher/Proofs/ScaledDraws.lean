import EpochCipher.Proofs.Shuffle
import Mathlib.Algebra.Order.Floor.Div
import Mathlib.Data.FinEnum
import Mathlib.Order.Interval.Finset.Nat

/-!
This module contains the proof that bounded draws are as even as draws of 32 bits can be. The draws
that are scaled to one value follow each other without a gap, from the first one that reaches the
value to the first one that reaches the next; so they are counted as an interval, whose ends lie
`2 ^ 32 / bound` apart, rounded down or up.
-/

namespace EpochCipher

namespace Draw

/-- The first draw that is scaled to `value` or more. -/
def firstDraw (bound value : Nat) : Nat :=
  value * 2 ^ 32 ⌈/⌉ bound

def drawsTo (bound value : UInt32) : Finset UInt32 :=
  Finset.univ.filter fun draw => scale bound draw = value

section

variable {bound : Nat} (h : 0 < bound)
include h

theorem firstDraw_le_iff (value draw : Nat) :
    firstDraw bound value ≤ draw ↔ value * 2 ^ 32 ≤ bound * draw :=
  ceilDiv_le_iff_le_mul h

theorem mul_pow_le_mul_firstDraw (value : Nat) :
    value * 2 ^ 32 ≤ bound * firstDraw bound value :=
  (firstDraw_le_iff h value _).mp (Nat.le_refl _)

theorem firstDraw_le_pow {value : Nat} (hvalue : value ≤ bound) :
    firstDraw bound value ≤ 2 ^ 32 := by
  rw [firstDraw_le_iff h]
  exact Nat.mul_le_mul_right _ hvalue

theorem firstDraw_succ_le (value : Nat) :
    firstDraw bound (value + 1) ≤ firstDraw bound value + 2 ^ 32 ⌈/⌉ bound := by
  have hceil : 2 ^ 32 ≤ bound * (2 ^ 32 ⌈/⌉ bound) := (ceilDiv_le_iff_le_mul h).mp le_rfl
  rw [firstDraw_le_iff h]
  rw [Nat.succ_mul]
  rw [Nat.mul_add]
  exact Nat.add_le_add (mul_pow_le_mul_firstDraw h value) hceil

theorem firstDraw_add_le_succ (value : Nat) :
    firstDraw bound value + 2 ^ 32 / bound ≤ firstDraw bound (value + 1) := by
  have hnext := mul_pow_le_mul_firstDraw h (value + 1)
  have hfloor : bound * (2 ^ 32 / bound) ≤ 2 ^ 32 := Nat.mul_div_le _ _
  rw [Nat.succ_mul] at hnext
  have hle : 2 ^ 32 / bound ≤ firstDraw bound (value + 1) := by
    apply Nat.le_of_mul_le_mul_left _ h
    exact (hfloor.trans (Nat.le_add_left _ _)).trans hnext
  -- `2 ^ 32 / bound` draws before the next value is reached, this one already is.
  rw [← Nat.le_sub_iff_add_le hle]
  rw [firstDraw_le_iff h]
  rw [Nat.mul_sub]
  apply Nat.le_sub_of_add_le
  exact (Nat.add_le_add_left hfloor _).trans hnext

theorem ceilDiv_le_div_succ (n : Nat) : n ⌈/⌉ bound ≤ n / bound + 1 := by
  rw [ceilDiv_le_iff_le_mul h]
  exact (Nat.lt_mul_div_succ n h).le

end

section

variable {bound : UInt32} (h : 0 < bound.toNat)
include h

theorem le_toNat_scale_iff (value : Nat) (draw : UInt32) :
    value ≤ (scale bound draw).toNat ↔ firstDraw bound.toNat value ≤ draw.toNat := by
  rw [toNat_scale]
  rw [Nat.le_div_iff_mul_le (by decide)]
  rw [firstDraw_le_iff h]
  rw [Nat.mul_comm draw.toNat]

theorem scale_le_scale {draw draw' : UInt32} (hle : draw ≤ draw') :
    scale bound draw ≤ scale bound draw' := by
  rw [UInt32.le_iff_toNat_le]
  rw [le_toNat_scale_iff h]
  apply Nat.le_trans _ (UInt32.le_iff_toNat_le.mp hle)
  rw [← le_toNat_scale_iff h]

theorem scale_eq_iff (value draw : UInt32) :
    scale bound draw = value
      ↔
    firstDraw bound.toNat value.toNat ≤ draw.toNat
      ∧ draw.toNat < firstDraw bound.toNat (value.toNat + 1) := by
  rw [← le_toNat_scale_iff h]
  rw [← Nat.not_le]
  rw [← le_toNat_scale_iff h]
  rw [← UInt32.toNat_inj]
  omega

theorem map_toNat_drawsTo {value : UInt32} (hvalue : value < bound) :
    (drawsTo bound value).map ⟨UInt32.toNat, fun _ _ => UInt32.toNat_inj.mp⟩
      =
    Finset.Ico (firstDraw bound.toNat value.toNat) (firstDraw bound.toNat (value.toNat + 1)) := by
  have hlast := firstDraw_le_pow h (UInt32.lt_iff_toNat_lt.mp hvalue)
  unfold drawsTo
  ext n
  simp only [Finset.mem_map, Finset.mem_filter_univ, Finset.mem_Ico]
  simp only [scale_eq_iff h]
  constructor
  . rintro ⟨draw, hdraw, rfl⟩
    exact hdraw
  . intro hn
    have hlt : n < UInt32.size := Nat.lt_of_lt_of_le hn.right hlast
    refine ⟨UInt32.ofNat n, ?_, UInt32.toNat_ofNat_of_lt' hlt⟩
    rw [UInt32.toNat_ofNat_of_lt' hlt]
    exact hn

theorem card_drawsTo {value : UInt32} (hvalue : value < bound) :
    (drawsTo bound value).card
      =
    firstDraw bound.toNat (value.toNat + 1) - firstDraw bound.toNat value.toNat := by
  rw [← Nat.card_Ico]
  rw [← map_toNat_drawsTo h hvalue]
  rw [Finset.card_map]

theorem div_le_card_drawsTo {value : UInt32} (hvalue : value < bound) :
    2 ^ 32 / bound.toNat ≤ (drawsTo bound value).card := by
  have := firstDraw_add_le_succ h value.toNat
  rw [card_drawsTo h hvalue]
  omega

theorem card_drawsTo_le {value : UInt32} (hvalue : value < bound) :
    (drawsTo bound value).card ≤ 2 ^ 32 ⌈/⌉ bound.toNat := by
  have := firstDraw_succ_le h value.toNat
  rw [card_drawsTo h hvalue]
  omega

theorem card_drawsTo_pos {value : UInt32} (hvalue : value < bound) :
    0 < (drawsTo bound value).card := by
  have hbound : bound.toNat < 2 ^ 32 := bound.toNat_lt
  apply Nat.lt_of_lt_of_le _ (div_le_card_drawsTo h hvalue)
  exact Nat.div_pos hbound.le h

end

/--
A bounded draw takes one draw and scales it with a product that does not overflow. The result lies
below the bound and rises with the draw. Every value below the bound has `2 ^ 32 / bound` draws that
are scaled to it, rounded down or up: none is left out, and none has more than one draw more than
another.
-/
theorem bounded_scales_evenly (bound : UInt32) (h : 1 ≤ bound) :
    (∀ g, (bounded bound).run g = (scale bound (next.run g).1, (next.run g).2))
      ∧ (∀ draw : UInt32, draw.toNat * bound.toNat < 2 ^ 64
        ∧ (draw.toUInt64 * bound.toUInt64).toNat = draw.toNat * bound.toNat
        ∧ (scale bound draw).toNat = draw.toNat * bound.toNat / 2 ^ 32
        ∧ scale bound draw < bound)
      ∧ (∀ draw draw', draw ≤ draw' → scale bound draw ≤ scale bound draw')
      ∧ (∀ value < bound,
        ((drawsTo bound value).card = 2 ^ 32 / bound.toNat
            ∨ (drawsTo bound value).card = 2 ^ 32 ⌈/⌉ bound.toNat)
          ∧ (∃ draw, scale bound draw = value)
          ∧ ∀ other < bound, (drawsTo bound value).card ≤ (drawsTo bound other).card + 1) := by
  have hpos : 0 < bound.toNat := UInt32.le_iff_toNat_le.mp h
  have hround := ceilDiv_le_div_succ hpos (2 ^ 32)
  refine ⟨fun g => rfl, ?_, fun _ _ => scale_le_scale hpos, ?_⟩
  . intro draw
    have hproduct := toNat_mul_toNat_lt draw bound
    refine ⟨hproduct, ?_, toNat_scale bound draw, ?_⟩
    . rw [UInt64.toNat_mul]
      exact Nat.mod_eq_of_lt hproduct
    . rw [UInt32.lt_iff_toNat_lt]
      exact scale_lt bound draw hpos
  . intro value hvalue
    have hfloor := div_le_card_drawsTo hpos hvalue
    have hceil := card_drawsTo_le hpos hvalue
    refine ⟨by omega, ?_, ?_⟩
    . rcases Finset.card_pos.mp (card_drawsTo_pos hpos hvalue) with ⟨draw, hdraw⟩
      exact ⟨draw, (Finset.mem_filter_univ draw).mp hdraw⟩
    . intro other hother
      have := div_le_card_drawsTo hpos hother
      omega

theorem bounded_scales_evenly_largest :
    (1 : UInt32) ≤ 0xffffffff
      ∧ (∀ draw : UInt32, scale 0xffffffff draw < 0xffffffff)
      ∧ (0 : UInt32) < 0xffffffff ∧ (0xfffffffe : UInt32) < 0xffffffff
      ∧ ((drawsTo 0xffffffff 0).card = 1 ∨ (drawsTo 0xffffffff 0).card = 2)
      ∧ (∃ draw, scale 0xffffffff draw = 0xfffffffe)
      ∧ (drawsTo 0xffffffff 0).card ≤ (drawsTo 0xffffffff 0xfffffffe).card + 1 := by
  have h : (1 : UInt32) ≤ 0xffffffff := by decide
  have hzero : (0 : UInt32) < 0xffffffff := by decide
  have hlast : (0xfffffffe : UInt32) < 0xffffffff := by decide
  have hall := bounded_scales_evenly 0xffffffff h
  have hcount := hall.right.right.right 0 hzero
  have hceil : 2 ^ 32 ⌈/⌉ (0xffffffff : UInt32).toNat = 2 := by
    rw [Nat.ceilDiv_eq_add_pred_div]
    rfl
  rw [hceil] at hcount
  exact ⟨h, fun draw => (hall.right.left draw).right.right.right, hzero, hlast, hcount.left,
    (hall.right.right.right _ hlast).right.left, hcount.right.right _ hlast⟩

end Draw

end EpochCipher
