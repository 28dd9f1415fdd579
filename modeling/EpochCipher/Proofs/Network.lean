import EpochCipher.Network
import EpochCipher.Proofs.Bits

/-!
This module contains the inverse of the bit networks and the permutation of the bits that a network
is, put together from those of its layers.
-/

namespace EpochCipher

namespace Network

open State

@[simp]
theorem unlayer_layer (mask : Vector UInt64 5) (rotation : Vector UInt32 5) (x : State) :
    unlayer mask rotation (layer mask rotation x) = x := by
  simp [unlayer, layer, wordShuffle_wordShuffle wordStride_mul_wordUnstride]

@[simp]
theorem unapply_apply (n : Network) (x : State) : n.unapply (n.apply x) = x := by
  unfold unapply
  unfold apply
  rw [maskedSwap_maskedSwap]
  apply finFoldr_finFoldl_cancel
  simp

@[simp]
theorem apply_unapply (n : Network) (x : State) : n.apply (n.unapply x) = x := by
  apply apply_undo_of_undo_apply
  apply unapply_apply

def layerPlaces (mask : Vector UInt64 5) (rotation : Vector UInt32 5) : Equiv.Perm Place :=
  ((swapPlaces mask).trans
    ((wordPlaces wordStride_mul_wordUnstride).prodCongr (Equiv.refl (Fin 64)))).trans
    ((Equiv.refl (Fin 10)).prodShear (rotatePlaces rotation))

def places (n : Network) : Equiv.Perm Place :=
  (Fin.foldl 5 (fun σ i => σ.trans (layerPlaces (n.masks.get i.castSucc) (n.rotations.get i)))
    (Equiv.refl Place)).trans (swapPlaces (n.masks.get 5))

theorem moves_layer (mask : Vector UInt64 5) (rotation : Vector UInt32 5) :
    Moves (layer mask rotation) (layerPlaces mask rotation) :=
  ((moves_maskedSwap mask).comp (moves_wordShuffle wordStride_mul_wordUnstride)).comp
    (moves_rotateEven rotation)

theorem moves_apply (n : Network) : Moves n.apply n.places := by
  have hlayers := Moves.finFoldl fun i : Fin 5 =>
    moves_layer (n.masks.get i.castSucc) (n.rotations.get i)
  exact hlayers.comp (moves_maskedSwap (n.masks.get 5))

theorem moves_unapply (n : Network) : Moves n.unapply n.places.symm :=
  (moves_apply n).symm (apply_unapply n)

theorem permutes_bits (n : Network) :
    (∀ x p, (n.apply x).bit (n.places p) = x.bit p)
      ∧ (∀ x p, (n.unapply x).bit (n.places.symm p) = x.bit p)
      ∧ (∀ x, (n.apply x).weight = x.weight ∧ (n.unapply x).weight = x.weight)
      ∧ ∀ x, n.unapply (n.apply x) = x ∧ n.apply (n.unapply x) = x := by
  refine ⟨moves_apply n, moves_unapply n, ?_, ?_⟩
  . intro x
    exact ⟨(moves_apply n).weight_eq x, (moves_unapply n).weight_eq x⟩
  . simp

end Network

end EpochCipher
