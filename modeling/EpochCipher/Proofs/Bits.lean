import EpochCipher.Proofs.State
import Mathlib.Algebra.BigOperators.Fin
import Mathlib.Algebra.Group.Fin.Basic
import Mathlib.Algebra.Group.Units.Equiv
import Mathlib.Data.Fintype.BigOperators

/-!
This module contains the view of a state as 640 bits and the layers that do nothing but move bits
about. Each of them follows one permutation of the places of the bits, whatever the state.
-/

namespace EpochCipher

abbrev Place := Fin 10 × Fin 64

namespace State

def bit (x : State) (p : Place) : Bool :=
  (x.get p.1).toBitVec.getLsbD p.2.val

def weight (x : State) : Nat :=
  (x.toList.map Word.weight).sum

theorem weight_eq_sum (x : State) : x.weight = ∑ p : Place, (x.bit p).toNat := by
  rw [weight]
  rw [toList_eq_ofFn]
  rw [List.map_ofFn]
  rw [List.sum_ofFn]
  rw [Fintype.sum_prod_type]
  apply Finset.sum_congr rfl
  intro w _
  exact countP_range_eq_sum (x.get w).toBitVec.getLsbD 64

/-- The map takes the bit at every place `p` to the place `σ p`, in all states alike. -/
def Moves (f : State → State) (σ : Equiv.Perm Place) : Prop :=
  ∀ x p, (f x).bit (σ p) = x.bit p

theorem Moves.comp {f g : State → State} {σ τ : Equiv.Perm Place} (hf : Moves f σ)
    (hg : Moves g τ) : Moves (fun x => g (f x)) (σ.trans τ) := by
  intro x p
  rw [Equiv.trans_apply]
  rw [hg]
  rw [hf]

theorem Moves.symm {f g : State → State} {σ : Equiv.Perm Place} (hf : Moves f σ)
    (hfg : ∀ x, f (g x) = x) : Moves g σ.symm := by
  intro x p
  rw [← hf]
  rw [hfg]
  rw [Equiv.apply_symm_apply]

theorem Moves.finFoldl {step : State → Fin n → State} {σ : Fin n → Equiv.Perm Place}
    (h : ∀ i, Moves (fun x => step x i) (σ i)) :
    Moves (Fin.foldl n step) (Fin.foldl n (fun τ i => τ.trans (σ i)) (Equiv.refl Place)) := by
  induction n with
  | zero =>
    intro x p
    simp
  | succ n ih =>
    intro x p
    rw [Fin.foldl_succ_last]
    rw [Fin.foldl_succ_last]
    exact (ih fun i => h i.castSucc).comp (h (Fin.last n)) x p

theorem Moves.weight_eq {f : State → State} {σ : Equiv.Perm Place} (h : Moves f σ) (x : State) :
    (f x).weight = x.weight := by
  rw [weight_eq_sum]
  rw [weight_eq_sum]
  rw [← Equiv.sum_comp σ]
  simp only [h x]

def partner (w : Fin 10) : Fin 10 :=
  ⟨2 * (w.val / 2) + (1 - w.val % 2), by omega⟩

@[simp]
theorem partner_partner (w : Fin 10) : partner (partner w) = w := by
  apply Fin.ext
  dsimp only [partner]
  omega

@[simp]
theorem partner_div_two (w : Fin 10) : (partner w).val / 2 = w.val / 2 := by
  dsimp only [partner]
  omega

theorem pair_xor (x : State) (w : Fin 10) :
    x[2 * (w.val / 2)] ^^^ x[2 * (w.val / 2) + 1] = x.get w ^^^ x.get (partner w) := by
  rw [Vector.get_eq_getElem]
  rw [Vector.get_eq_getElem]
  by_cases h : w.val % 2 = 0
  . have heven : w.val = 2 * (w.val / 2) := by omega
    have hodd : (partner w).val = 2 * (w.val / 2) + 1 := by
      dsimp only [partner]
      omega
    simp only [hodd, ← heven]
  . have hodd : w.val = 2 * (w.val / 2) + 1 := by omega
    have heven : (partner w).val = 2 * (w.val / 2) := by
      dsimp only [partner]
      omega
    rw [UInt64.xor_comm]
    simp only [heven, ← hodd]

def swapPlace (mask : Vector UInt64 5) (p : Place) : Place :=
  if mask[p.1.val / 2].toBitVec.getLsbD p.2.val then (partner p.1, p.2) else p

theorem swapPlace_involutive (mask : Vector UInt64 5) :
    Function.Involutive (swapPlace mask) := by
  intro p
  unfold swapPlace
  by_cases h : mask[p.1.val / 2].toBitVec.getLsbD p.2.val = true
  . rw [if_pos h]
    simp only [partner_div_two]
    rw [if_pos h]
    rw [partner_partner]
  . rw [if_neg h]
    rw [if_neg h]

def swapPlaces (mask : Vector UInt64 5) : Equiv.Perm Place :=
  (swapPlace_involutive mask).toPerm

theorem bit_maskedSwap (mask : Vector UInt64 5) (x : State) (p : Place) :
    (maskedSwap mask x).bit p = x.bit (swapPlace mask p) := by
  have hword : (maskedSwap mask x).get p.1
      = x.get p.1 ^^^ (mask[p.1.val / 2] &&& (x.get p.1 ^^^ x.get (partner p.1))) := by
    rw [← pair_xor]
    exact getElem_maskedSwap mask x p.1.val p.1.isLt
  unfold bit swapPlace
  rw [hword]
  simp only [UInt64.toBitVec_xor, UInt64.toBitVec_and, BitVec.getLsbD_xor, BitVec.getLsbD_and]
  cases mask[p.1.val / 2].toBitVec.getLsbD p.2.val with
  | false => simp
  | true => simp

theorem moves_maskedSwap (mask : Vector UInt64 5) : Moves (maskedSwap mask) (swapPlaces mask) := by
  intro x p
  rw [bit_maskedSwap]
  exact congrArg x.bit (swapPlace_involutive mask p)

theorem mul_mod_lt (m : Nat) (w : Fin 10) : m * w.val % 10 < 10 :=
  Nat.mod_lt _ (by decide)

def wordPlaces {m m' : Nat} (h : m * m' % 10 = 1) : Equiv.Perm (Fin 10) where
  toFun w := ⟨m * w.val % 10, mul_mod_lt m w⟩
  invFun w := ⟨m' * w.val % 10, mul_mod_lt m' w⟩
  left_inv w := by
    apply Fin.ext
    exact mul_mod_mul_mod h w.val w.isLt
  right_inv w := by
    have h' : m' * m % 10 = 1 := by
      rw [Nat.mul_comm]
      exact h
    apply Fin.ext
    exact mul_mod_mul_mod h' w.val w.isLt

@[simp]
theorem get_wordShuffle {m m' : Nat} (h : m * m' % 10 = 1) (x : State) (w : Fin 10) :
    (wordShuffle m x).get (wordPlaces h w) = x.get w := by
  rw [Vector.get_eq_getElem]
  rw [getElem_wordShuffle m m' h]
  rw [Vector.get_eq_getElem]
  simp only [wordPlaces, Equiv.coe_fn_mk, mul_mod_mul_mod h w.val w.isLt]

theorem moves_wordShuffle {m m' : Nat} (h : m * m' % 10 = 1) :
    Moves (wordShuffle m) ((wordPlaces h).prodCongr (Equiv.refl (Fin 64))) := by
  intro x p
  unfold bit
  simp

def rotatePlaces (amounts : Vector UInt32 5) (w : Fin 10) : Equiv.Perm (Fin 64) :=
  if w.val % 2 = 0 then Equiv.addRight (Fin.ofNat 64 amounts[w.val / 2].toNat) else Equiv.refl _

theorem moves_rotateEven (amounts : Vector UInt32 5) :
    Moves (rotateEven amounts) ((Equiv.refl (Fin 10)).prodShear (rotatePlaces amounts)) := by
  intro x p
  have hword : (rotateEven amounts x).get p.1
      = if p.1.val % 2 = 0 then Word.rotl (x.get p.1) amounts[p.1.val / 2].toNat else x.get p.1 :=
    getElem_rotateEven amounts x p.1.val p.1.isLt
  unfold bit
  rw [Equiv.prodShear_apply]
  dsimp only [Equiv.refl_apply]
  rw [hword]
  unfold rotatePlaces
  by_cases h : p.1.val % 2 = 0
  . rw [if_pos h]
    rw [if_pos h]
    rw [Word.getLsbD_rotl _ _ _ (Fin.isLt _)]
    congr 1
    rw [Equiv.coe_addRight]
    rw [Fin.val_add]
    rw [Fin.val_ofNat]
    omega
  . rw [if_neg h]
    rw [if_neg h]
    rfl

end State

end EpochCipher
