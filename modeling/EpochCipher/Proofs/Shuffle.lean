import EpochCipher.Shuffle
import Mathlib.Algebra.Order.Ring.Nat

/-!
This module contains what holds of every draw, whatever the generator it starts from: that bounded
draws lie below their bound and that a shuffle rearranges its elements.
-/

namespace EpochCipher

namespace Draw

def Always (d : Draw α) (P : α → Prop) : Prop :=
  ∀ g, P (d.eval g)

theorem always_pure {P : α → Prop} {a : α} (h : P a) : (pure a : Draw α).Always P := by
  intro g
  rw [eval_eq]
  rw [run_pure]
  exact h

theorem always_bind {d : Draw α} {f : α → Draw β} {P : α → Prop} {Q : β → Prop}
    (hd : d.Always P) (hf : ∀ a, P a → (f a).Always Q) : (d >>= f).Always Q := by
  intro g
  rw [eval_eq]
  rw [run_bind]
  apply hf
  apply hd

theorem always_ofFnM {f : Fin n → Draw α} {P : α → Prop} (h : ∀ i, (f i).Always P) :
    (Vector.ofFnM f).Always fun xs => ∀ x ∈ xs, P x := by
  induction n with
  | zero =>
    rw [Vector.ofFnM_zero]
    apply always_pure
    simp
  | succ n ih =>
    rw [Vector.ofFnM_succ]
    refine always_bind (ih fun i => h i.castSucc) ?_
    intro xs hxs
    refine always_bind (h (Fin.last n)) ?_
    intro y hy
    apply always_pure
    intro x hx
    rw [Vector.mem_push] at hx
    cases hx with
    | inl hx => exact hxs x hx
    | inr hx =>
      rw [hx]
      exact hy

theorem always_next : next.Always fun _ => True := by
  intro g
  trivial

theorem toNat_mul_toNat_lt (m n : UInt32) : m.toNat * n.toNat < 2 ^ 64 := by
  calc m.toNat * n.toNat
    _ < 2 ^ 32 * 2 ^ 32 := Nat.mul_lt_mul'' m.toNat_lt n.toNat_lt
    _ = 2 ^ 64 := by rfl

@[simp]
theorem toNat_scale (bound draw : UInt32) :
    (scale bound draw).toNat = draw.toNat * bound.toNat / 2 ^ 32 := by
  have hproduct := toNat_mul_toNat_lt draw bound
  have hquotient : draw.toNat * bound.toNat / 2 ^ 32 < 2 ^ 32 := by omega
  unfold scale
  rw [UInt64.toNat_toUInt32]
  rw [UInt64.toNat_shiftRight]
  rw [UInt64.toNat_mul]
  rw [UInt32.toNat_toUInt64]
  rw [UInt32.toNat_toUInt64]
  rw [Nat.mod_eq_of_lt hproduct]
  rw [show (32 : UInt64).toNat % 64 = 32 by rfl]
  rw [Nat.shiftRight_eq_div_pow]
  exact Nat.mod_eq_of_lt hquotient

theorem scale_lt (bound draw : UInt32) (h : 0 < bound.toNat) :
    (scale bound draw).toNat < bound.toNat := by
  rw [toNat_scale]
  apply Nat.div_lt_of_lt_mul
  exact Nat.mul_lt_mul_of_pos_right draw.toNat_lt h

theorem always_bounded (bound : UInt32) (h : 0 < bound.toNat) :
    (bounded bound).Always fun n => n.toNat < bound.toNat := by
  refine always_bind always_next ?_
  intro draw _
  apply always_pure
  exact scale_lt bound draw h

end Draw

namespace Shuffle

theorem swapIfInBounds_eq_swap (xs : Vector α n) {i j : Nat} (hi : i < n) (hj : j < n) :
    xs.swapIfInBounds i j = xs.swap i j hi hj := by
  rcases xs with ⟨xs, rfl⟩
  simp [Array.swapIfInBounds_def, hi, hj]

theorem swapIfInBounds_eq_self (xs : Vector α n) {i j : Nat} (h : ¬(i < n ∧ j < n)) :
    xs.swapIfInBounds i j = xs := by
  rcases xs with ⟨xs, rfl⟩
  rw [Vector.swapIfInBounds_mk]
  simp only [Array.swapIfInBounds_def]
  split
  . split
    . next hi hj => exact absurd ⟨hi, hj⟩ h
    . rfl
  . rfl

theorem swapIfInBounds_perm (xs : Vector α n) (i j : Nat) :
    (xs.swapIfInBounds i j).toList.Perm xs.toList := by
  by_cases h : i < n ∧ j < n
  . rw [swapIfInBounds_eq_swap xs h.left h.right]
    exact (Vector.swap_perm h.left h.right).toList
  . rw [swapIfInBounds_eq_self xs h]

theorem swapAll_go_perm (positions : List Nat) (i : Nat) (xs : Vector α n) :
    (swapAll.go i xs positions).toList.Perm xs.toList := by
  induction positions generalizing i xs with
  | nil => rfl
  | cons j positions ih =>
    rw [swapAll.go]
    apply List.Perm.trans
    . apply ih
    . apply swapIfInBounds_perm

end Shuffle

theorem always_shuffle (xs : Vector α n) :
    (shuffle xs).Always fun ys => ys.toList.Perm xs.toList := by
  intro g
  unfold shuffle
  rw [Draw.eval_eq]
  rw [Draw.run_bind]
  rw [Draw.run_pure]
  apply Shuffle.swapAll_go_perm

end EpochCipher
