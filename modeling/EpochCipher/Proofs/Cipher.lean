import EpochCipher.Cipher
import EpochCipher.Proofs.LinearMix
import EpochCipher.Proofs.LittleEndian
import EpochCipher.Proofs.Network
import EpochCipher.Proofs.Schedule

/-!
This module contains the proof that decryption and encryption are inverse to each other: it takes
the rounds back one by one, layer by layer.
-/

namespace EpochCipher

namespace Schedule

open State

theorem exists_unround_eq_ok (s : Schedule) (inverse : Substitution) :
    ∃ f : UInt16 → State → State, ∀ roundKey x, s.unround inverse roundKey x = .ok (f roundKey x) := by
  have hround : ∀ roundKey x, ∃ y, s.unround inverse roundKey x = .ok y := by
    intro roundKey x
    unfold unround
    rw [linearUnmix_eq]
    exact ⟨_, rfl⟩
  choose f hf using hround
  exact ⟨f, hf⟩

theorem unround_round (s : Schedule) (inverse : Substitution)
    (hinverse : ∀ x, inverse.apply (s.substitution.apply x) = x) (roundKey : UInt16) (x : State) :
    s.unround inverse roundKey (s.round x roundKey) = .ok x := by
  simp [unround, round, hinverse, bind, Except.bind, pure, Except.pure]

theorem decrypt_encrypt {s : Schedule} (h : s.substitution.isBijective = true) (block : Block) :
    s.decrypt (s.encrypt block) = .ok block := by
  rcases Substitution.exists_invert h with ⟨inverse, hinvert, hinverse⟩
  have hrounds : s.roundKeys.foldrM (s.unround inverse)
      (s.roundKeys.foldl s.round (preMix (unpack block))) = .ok (preMix (unpack block)) := by
    apply foldrM_foldl_cancel
    intro roundKey x
    apply unround_round
    exact hinverse
  unfold decrypt
  unfold encrypt
  rw [hinvert]
  rw [unpack_pack]
  dsimp [bind, Except.bind, pure, Except.pure, Except.mapError]
  rw [hrounds]
  simp

theorem encrypt_injective {s : Schedule} (h : s.substitution.isBijective = true) :
    Function.Injective s.encrypt :=
  injective_of_recover (decrypt_encrypt h)

theorem encrypt_bijective {s : Schedule} (h : s.substitution.isBijective = true) :
    Function.Bijective s.encrypt := by
  have hinj := encrypt_injective h
  exact ⟨hinj, Finite.injective_iff_surjective.mp hinj⟩

theorem encrypt_decrypt_inverse (s : Schedule) (h : s.substitution.isBijective = true) :
    (∀ block : Block, s.decrypt (s.encrypt block) = .ok block)
      ∧ (∀ block : Block, ∃ plain, s.decrypt block = .ok plain ∧ s.encrypt plain = block)
      ∧ Function.Bijective s.encrypt := by
  have hbij := encrypt_bijective h
  refine ⟨decrypt_encrypt h, ?_, hbij⟩
  intro block
  rcases hbij.surjective block with ⟨plain, hplain⟩
  refine ⟨plain, ?_, hplain⟩
  rw [← hplain]
  exact decrypt_encrypt h plain

theorem encrypt_decrypt_inverse_build_one :
    (build 1).substitution.isBijective = true
      ∧ (∀ block : Block, (build 1).decrypt ((build 1).encrypt block) = .ok block)
      ∧ (∀ block : Block, ∃ plain,
        (build 1).decrypt block = .ok plain ∧ (build 1).encrypt plain = block)
      ∧ Function.Bijective (build 1).encrypt := by
  have h := isBijective_build 1
  exact ⟨h, encrypt_decrypt_inverse (build 1) h⟩

end Schedule

end EpochCipher
