import EpochCipher.RotationSet
import EpochCipher.Proofs.Shuffle
import Mathlib.Data.List.Nodup

/-!
This module contains what the check of a rotation set decides and the proof that every drawn set
passes it: the first five leave so many candidates of either parity that the scan for a sixth one
always finds one that fits, after 31 others at most.
-/

namespace EpochCipher

namespace RotationSet

structure Valid (amounts : List UInt32) : Prop where
  nodup : amounts.Nodup
  mem_range : ∀ r ∈ amounts, 1 ≤ r.toNat ∧ r.toNat ≤ 63
  sum_odd : (amounts.map UInt32.toNat).sum % 2 = 1

@[simp]
theorem areDistinct_iff (amounts : List UInt32) : areDistinct amounts = true ↔ amounts.Nodup := by
  induction amounts with
  | nil => simp [areDistinct]
  | cons r amounts ih =>
    simp [areDistinct, ih]

theorem toNat_foldl_add (amounts : List UInt32) (init : UInt32) :
    (amounts.foldl (· + ·) init).toNat
      =
    (init.toNat + (amounts.map UInt32.toNat).sum) % 2 ^ 32 := by
  induction amounts generalizing init with
  | nil =>
    rw [List.foldl_nil]
    simp [Nat.mod_eq_of_lt init.toNat_lt]
  | cons r amounts ih =>
    rw [List.foldl_cons]
    rw [ih]
    rw [UInt32.toNat_add]
    rw [Nat.mod_add_mod]
    rw [List.map_cons]
    rw [List.sum_cons]
    rw [Nat.add_assoc]

@[simp]
theorem toNat_sum (amounts : List UInt32) :
    (sum amounts).toNat = (amounts.map UInt32.toNat).sum % 2 ^ 32 := by
  rw [sum]
  rw [toNat_foldl_add]
  simp

theorem mod_two_beq_one_iff (n : UInt32) : (n % 2 == 1) = true ↔ n.toNat % 2 = 1 := by
  rw [beq_iff_eq]
  rw [← UInt32.toNat_inj]
  rw [UInt32.toNat_mod]
  rfl

theorem isValid_iff (amounts : List UInt32) : isValid amounts = true ↔ Valid amounts := by
  unfold isValid
  rw [Bool.and_eq_true]
  rw [Bool.and_eq_true]
  rw [areDistinct_iff]
  rw [mod_two_beq_one_iff]
  rw [toNat_sum]
  rw [Nat.mod_mod_of_dvd _ (by decide)]
  rw [List.all_eq_true]
  have hrange : ∀ r : UInt32, (decide (1 ≤ r) && decide (r < 64)) = true
      ↔ 1 ≤ r.toNat ∧ r.toNat ≤ 63 := by
    intro r
    rw [Bool.and_eq_true]
    rw [decide_eq_true_eq]
    rw [decide_eq_true_eq]
    rw [UInt32.le_iff_toNat_le]
    rw [UInt32.lt_iff_toNat_lt]
    rw [show (1 : UInt32).toNat = 1 by rfl]
    rw [show (64 : UInt32).toNat = 64 by rfl]
    omega
  simp only [hrange]
  constructor
  . intro ⟨⟨hmem, hnodup⟩, hodd⟩
    exact ⟨hnodup, hmem, hodd⟩
  . intro ⟨hnodup, hmem, hodd⟩
    exact ⟨⟨hmem, hnodup⟩, hodd⟩

theorem fits_iff (amounts : List UInt32) (r : UInt32) :
    ((r + sum amounts) % 2 == 1) = true
      ↔
    ((amounts.map UInt32.toNat).sum + r.toNat) % 2 = 1 := by
  rw [mod_two_beq_one_iff]
  rw [UInt32.toNat_add]
  rw [toNat_sum]
  omega

theorem sum_mod_two_eq_countP (amounts : List UInt32) :
    (amounts.map UInt32.toNat).sum % 2 = amounts.countP (fun r => r.toNat % 2 == 1) % 2 := by
  induction amounts with
  | nil => rfl
  | cons r amounts ih =>
    rw [List.map_cons]
    rw [List.sum_cons]
    by_cases h : r.toNat % 2 = 1
    . rw [List.countP_cons_of_pos (by simpa using h)]
      omega
    . rw [List.countP_cons_of_neg (by simpa using h)]
      omega

theorem countP_misfit_le {xs : List UInt32} (h : xs.Perm candidates.toList) :
    (xs.drop 5).countP (fun r => !((r + sum (xs.take 5)) % 2 == 1)) ≤ 31 := by
  have hodd : xs.countP (fun r => r.toNat % 2 == 1) = 32 := by
    rw [h.countP_eq]
    decide
  have heven : xs.countP (fun r => r.toNat % 2 == 0) = 31 := by
    rw [h.countP_eq]
    decide
  have hparity := sum_mod_two_eq_countP (xs.take 5)
  rw [← List.take_append_drop 5 xs] at hodd heven
  rw [List.countP_append] at hodd heven
  -- What does not fit has the parity of the first five.
  have hmisfit : (xs.drop 5).countP (fun r => !((r + sum (xs.take 5)) % 2 == 1))
      = (xs.drop 5).countP
        fun r => r.toNat % 2 == ((xs.take 5).map UInt32.toNat).sum % 2 := by
    apply List.countP_congr
    intro r _
    rw [Bool.not_eq_true']
    rw [← Bool.not_eq_true]
    rw [fits_iff]
    rw [beq_iff_eq]
    omega
  have hs : ((xs.take 5).map UInt32.toNat).sum % 2 = 0
      ∨ ((xs.take 5).map UInt32.toNat).sum % 2 = 1 := by
    omega
  rw [hmisfit]
  cases hs with
  | inl hs =>
    rw [hs]
    omega
  -- An odd sum has used up at least one of the 32 odd amounts.
  | inr hs =>
    rw [hs]
    omega

theorem exists_find?_eq {p : α → Bool} {xs : List α} (h : xs.countP (fun x => !p x) < xs.length) :
    ∃ (k : Nat) (hk : k < xs.length), xs.find? p = some xs[k] ∧ p xs[k] = true
      ∧ (∀ (j : Nat) (hj : j < k), p xs[j] = false)
      ∧ k ≤ xs.countP fun x => !p x := by
  cases hfind : xs.find? p with
  | none =>
    rw [List.find?_eq_none] at hfind
    rw [List.countP_eq_length.mpr (by simpa using hfind)] at h
    omega
  | some x =>
    rcases List.find?_eq_some_iff_getElem.mp hfind with ⟨hp, k, hk, rfl, hbefore⟩
    have hskipped : (xs.take k).countP (fun x => !p x) = k := by
      rw [List.countP_eq_length.mpr]
      . rw [List.length_take]
        omega
      . intro y hy
        rcases List.getElem_of_mem hy with ⟨j, hj, rfl⟩
        rw [List.length_take] at hj
        rw [List.getElem_take]
        exact hbefore j (by omega)
    have hle := (List.take_sublist k xs).countP_le (p := fun x => !p x)
    refine ⟨k, hk, rfl, hp, ?_, by omega⟩
    intro j hj
    simpa using hbefore j hj

theorem exists_first_fit {xs : Vector UInt32 63} (h : xs.toList.Perm candidates.toList) :
    ∃ (k : Nat) (hk : k < 63), 5 ≤ k ∧ k ≤ 36
      ∧ (((xs.toList.take 5).map UInt32.toNat).sum + xs[k].toNat) % 2 = 1
      ∧ (∀ (j : Nat) (hj : j < k), 5 ≤ j →
        (((xs.toList.take 5).map UInt32.toNat).sum + xs[j].toNat) % 2 = 0)
      ∧ (pick xs).toList = xs.toList.take 5 ++ [xs[k]] := by
  have hmisfit := countP_misfit_le h
  have hlength : (xs.toList.drop 5).length = 58 := by simp
  rcases exists_find?_eq (Nat.lt_of_le_of_lt hmisfit (by omega)) with
    ⟨k, hk, hfind, hfit, hbefore, hle⟩
  rw [List.getElem_drop] at hfit
  rw [fits_iff] at hfit
  refine ⟨5 + k, by omega, by omega, by omega, hfit, ?_, ?_⟩
  . intro j hj hle'
    have hmisfit := hbefore (j - 5) (by omega)
    rw [← Bool.not_eq_true] at hmisfit
    rw [fits_iff] at hmisfit
    rw [List.getElem_drop] at hmisfit
    simp only [Nat.add_sub_cancel' hle', Vector.getElem_toList] at hmisfit
    omega
  . unfold pick
    dsimp only
    rw [hfind]
    apply List.ext_getElem
    . simp
    . intro i h1 h2
      match i with
      | 0 | 1 | 2 | 3 | 4 | 5 => simp

theorem range_of_mem_candidates {r : UInt32} (h : r ∈ candidates.toList) :
    1 ≤ r.toNat ∧ r.toNat ≤ 63 := by
  simp only [candidates, Vector.mem_toList_iff, Vector.mem_ofFn] at h
  rcases h with ⟨i, rfl⟩
  simp
  omega

theorem map_toNat_candidates : candidates.toList.map UInt32.toNat = List.range' 1 63 := by
  decide

theorem nodup_candidates : candidates.toList.Nodup := by
  decide

theorem valid_pick {xs : Vector UInt32 63} (h : xs.toList.Perm candidates.toList) :
    Valid (pick xs).toList := by
  rcases exists_first_fit h with ⟨k, hk, hle, _, hodd, _, hpick⟩
  have hr : xs[k] ∈ xs.toList.drop 5 := by
    rw [List.mem_drop_iff_getElem]
    exact ⟨k - 5, by simp; omega, by simp [Nat.add_sub_cancel' hle]⟩
  have hnodup : (xs.toList.take 5 ++ xs.toList.drop 5).Nodup := by
    rw [List.take_append_drop]
    exact h.nodup_iff.mpr nodup_candidates
  rw [List.nodup_append] at hnodup
  rcases hnodup with ⟨hfirsts, _, hdisjoint⟩
  rw [hpick]
  constructor
  . rw [List.nodup_append]
    refine ⟨hfirsts, by simp, ?_⟩
    intro a ha b hb
    rw [List.mem_singleton] at hb
    rw [hb]
    exact hdisjoint a ha xs[k] hr
  . intro a ha
    apply range_of_mem_candidates
    rw [← h.mem_iff]
    rw [List.mem_append] at ha
    rw [List.mem_singleton] at ha
    cases ha with
    | inl ha => exact List.mem_of_mem_take ha
    | inr ha =>
      rw [ha]
      exact List.mem_of_mem_drop hr
  . rw [List.map_append]
    rw [List.sum_append]
    rw [List.map_singleton]
    rw [List.sum_singleton]
    exact hodd

theorem always_draw : draw.Always fun r => Valid r.toList := by
  refine Draw.always_bind (always_shuffle candidates) ?_
  intro xs hxs
  apply Draw.always_pure
  exact valid_pick hxs

theorem draw_takes_first_fit (g : Generator) :
    candidates.toList.map UInt32.toNat = List.range' 1 63
      ∧ ∃ (xs : Vector UInt32 63) (r : RotationSet) (g' : Generator) (k : Nat) (hk : k < 63),
        (shuffle candidates).run g = (xs, g')
          ∧ draw.run g = (r, g')
          ∧ r.toList = xs.toList.take 5 ++ [xs[k]]
          ∧ 5 ≤ k ∧ k ≤ 36
          ∧ (((xs.toList.take 5).map UInt32.toNat).sum + xs[k].toNat) % 2 = 1
          ∧ ∀ (j : Nat) (hj : j < k), 5 ≤ j →
            (((xs.toList.take 5).map UInt32.toNat).sum + xs[j].toNat) % 2 = 0 := by
  have hperm : ((shuffle candidates).eval g).toList.Perm candidates.toList :=
    always_shuffle candidates g
  rcases exists_first_fit hperm with ⟨k, hk, hge, hle, hodd, heven, hpick⟩
  refine ⟨map_toNat_candidates, (shuffle candidates).eval g, pick ((shuffle candidates).eval g),
    ((shuffle candidates).run g).2, k, hk, rfl, ?_, hpick, hge, hle, hodd, heven⟩
  unfold draw
  rw [Draw.run_bind]
  rw [Draw.run_pure]
  rfl

end RotationSet

end EpochCipher
