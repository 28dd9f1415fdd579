import EpochCipher.Proofs.Cipher

/-!
This module contains the proof that no round key is redundant. Two schedules that differ in the key
of one round take a block through the same states up to this round. There the low bits of the keys
drive the states apart, and all rounds behind it keep them apart, as each of them can be undone.
-/

namespace EpochCipher

namespace State

theorem toUInt64_injective : Function.Injective Bool.toUInt64 := by
  decide

theorem injectKey_eq_injectKey_iff (k l : UInt16) (x : State) :
    injectKey k x = injectKey l x
      ↔
    ∀ i < 10, k.toBitVec.getLsbD i = l.toBitVec.getLsbD i := by
  constructor
  . intro h i hi
    have hword : (injectKey k x)[i] = (injectKey l x)[i] := by rw [h]
    simp only [getElem_injectKey] at hword
    apply toUInt64_injective
    rw [← UInt64.xor_right_inj x[i]]
    exact hword
  . intro h
    apply Vector.ext
    intro i hi
    simp only [getElem_injectKey, h i hi]

theorem pack_injective : Function.Injective pack := by
  have hleft : Function.LeftInverse unpack pack := unpack_pack
  exact hleft.injective

end State

namespace Schedule

open State

theorem round_injective {s : Schedule} (h : s.substitution.isBijective = true)
    (roundKey : UInt16) : Function.Injective fun x => s.round x roundKey := by
  rcases Substitution.exists_invert h with ⟨inverse, _, hinverse⟩
  exact injective_of_recover (unround_round s inverse hinverse roundKey)

theorem round_eq_round_iff (s : Schedule) (x : State) (k l : UInt16) :
    s.round x k = s.round x l ↔ ∀ i < 10, k.toBitVec.getLsbD i = l.toBitVec.getLsbD i := by
  unfold round
  dsimp only
  rw [injectKey_eq_injectKey_iff]

structure SameExceptRoundKey (r : Fin 84) (s t : Schedule) : Prop where
  key_eq : s.key = t.key
  networks_eq : s.networks = t.networks
  substitution_eq : s.substitution = t.substitution
  rotations_eq : s.rotations = t.rotations
  roundKey_eq : ∀ i ≠ r, s.roundKeys.get i = t.roundKeys.get i

namespace SameExceptRoundKey

variable {r : Fin 84} {s t : Schedule}

theorem round_eq (h : SameExceptRoundKey r s t) : s.round = t.round := by
  funext x roundKey
  unfold round
  rw [h.networks_eq]
  rw [h.substitution_eq]
  rw [h.rotations_eq]

theorem foldl_round_eq_iff (h : SameExceptRoundKey r s t)
    (hs : s.substitution.isBijective = true) (x : State) :
    s.roundKeys.foldl s.round x = t.roundKeys.foldl t.round x
      ↔
    ∀ i < 10, (s.roundKeys.get r).toBitVec.getLsbD i = (t.roundKeys.get r).toBitVec.getLsbD i := by
  rcases exists_toList_eq_append_cons r h.roundKey_eq with ⟨before, behind, hkeys, hkeys'⟩
  rw [← h.round_eq]
  rw [← Vector.foldl_toList]
  rw [← Vector.foldl_toList]
  rw [hkeys]
  rw [hkeys']
  rw [List.foldl_append]
  rw [List.foldl_append]
  rw [List.foldl_cons]
  rw [List.foldl_cons]
  rw [← round_eq_round_iff s (before.foldl s.round x)]
  -- The rounds behind round `r` are injective, so that they keep what it makes of the two keys.
  exact (foldl_injective (round_injective hs) behind).eq_iff

end SameExceptRoundKey

theorem encrypt_ne_iff_roundKey_ne {r : Fin 84} {s t : Schedule} (h : SameExceptRoundKey r s t)
    (hs : s.substitution.isBijective = true) (block : Block) :
    s.encrypt block ≠ t.encrypt block
      ↔
    ∃ i < 10, (s.roundKeys.get r).toBitVec.getLsbD i ≠ (t.roundKeys.get r).toBitVec.getLsbD i := by
  unfold encrypt
  rw [ne_eq]
  rw [pack_injective.eq_iff]
  rw [h.foldl_round_eq_iff hs]
  simp

theorem encrypt_ne_iff_roundKey_ne_build_one :
    ∃ s t : Schedule,
      s = build 1
        ∧ t = { build 1 with
          roundKeys := (build 1).roundKeys.set 0 ((build 1).roundKeys[0] ^^^ 0x200) }
        ∧ SameExceptRoundKey 0 s t
        ∧ s.substitution.isBijective = true
        ∧ ∀ block, s.encrypt block ≠ t.encrypt block := by
  have h (b : Schedule) : SameExceptRoundKey 0 b
      { b with roundKeys := b.roundKeys.set 0 (b.roundKeys[0] ^^^ 0x200) } := by
    constructor
    . rfl
    . rfl
    . rfl
    . rfl
    . intro i hi
      have hne : 0 ≠ i.val := by
        intro heq
        exact hi (Fin.ext heq.symm)
      simp [Vector.get_eq_getElem, hne]
  have hbit (keys : Vector UInt16 84) : ∃ i < 10, (keys.get 0).toBitVec.getLsbD i
      ≠ ((keys.set 0 (keys[0] ^^^ 0x200)).get 0).toBitVec.getLsbD i := by
    have hget : (keys.set 0 (keys[0] ^^^ 0x200)).get 0 = keys.get 0 ^^^ 0x200 :=
      Vector.getElem_set_self _
    refine ⟨9, by decide, ?_⟩
    rw [hget]
    rw [UInt16.toBitVec_xor]
    rw [BitVec.getLsbD_xor]
    rw [show (0x200 : UInt16).toBitVec.getLsbD 9 = true by decide]
    simp
  have hs := isBijective_build 1
  refine ⟨_, _, rfl, rfl, h (build 1), hs, ?_⟩
  intro block
  rw [encrypt_ne_iff_roundKey_ne (h (build 1)) hs]
  exact hbit (build 1).roundKeys

end Schedule

end EpochCipher
