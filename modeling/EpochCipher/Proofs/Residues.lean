import EpochCipher.Digest
import EpochCipher.Proofs.LinearMix

/-!
This module contains what the cipher sees of a schedule: rotations modulo 64, the polynomial of the
linear mix and the lowest ten bits of every round key. Schedules that agree in these encrypt, decrypt
and hash alike, whatever their tables are.
-/

namespace EpochCipher

namespace State

open RotationRing

@[simp]
theorem rotateEven_map_mod (amounts : Vector UInt32 5) (x : State) :
    rotateEven (amounts.map (· % 64)) x = rotateEven amounts x := by
  apply Vector.ext
  intro i hi
  simp

@[simp]
theorem unrotateEven_map_mod (amounts : Vector UInt32 5) (x : State) :
    unrotateEven (amounts.map (· % 64)) x = unrotateEven amounts x := by
  apply Vector.ext
  intro i hi
  simp

theorem linearMix_congr {r r' : Vector UInt32 6} (h : ofAmounts r.toList = ofAmounts r'.toList) :
    linearMix r = linearMix r' := by
  funext x
  apply Vector.ext
  intro i hi
  rw [getElem_linearMix_mul r x i ((i + 1) % 10) hi (by omega) rfl]
  rw [getElem_linearMix_mul r' x i ((i + 1) % 10) hi (by omega) rfl]
  rw [h]

theorem linearUnmix_congr {r r' : Vector UInt32 6}
    (h : ofAmounts r.toList = ofAmounts r'.toList) : linearUnmix r = linearUnmix r' := by
  funext x
  unfold linearUnmix
  rw [h]

theorem getLsbD_mod_1024 (key : UInt16) (i : Nat) (h : i < 10) :
    (key % 1024).toBitVec.getLsbD i = key.toBitVec.getLsbD i := by
  rw [← BitVec.testBit_toNat]
  rw [← BitVec.testBit_toNat]
  rw [UInt16.toNat_toBitVec]
  rw [UInt16.toNat_toBitVec]
  rw [UInt16.toNat_mod]
  rw [show (1024 : UInt16).toNat = 2 ^ 10 by rfl]
  rw [Nat.testBit_mod_two_pow]
  simp [h]

@[simp]
theorem injectKey_mod (key : UInt16) (x : State) : injectKey (key % 1024) x = injectKey key x := by
  apply Vector.ext
  intro i hi
  simp only [getElem_injectKey, getLsbD_mod_1024 key i hi]

end State

namespace Network

open State

def residue (n : Network) : Network :=
  { n with rotations := n.rotations.map fun row => row.map (· % 64) }

@[simp]
theorem get_rotations_residue (n : Network) (i : Fin 5) :
    n.residue.rotations.get i = (n.rotations.get i).map (· % 64) := by
  simp [residue, Vector.get_eq_getElem]

@[simp]
theorem apply_residue (n : Network) : n.residue.apply = n.apply := by
  funext x
  simp only [apply, layer, get_rotations_residue, rotateEven_map_mod]
  rfl

@[simp]
theorem unapply_residue (n : Network) : n.residue.unapply = n.unapply := by
  funext x
  simp only [unapply, unlayer, get_rotations_residue, unrotateEven_map_mod]
  rfl

theorem residue_eq_iff (m n : Network) :
    m.residue = n.residue
      ↔
    m.masks = n.masks ∧ ∀ i j : Fin 5, ((m.rotations.get i).get j).toNat % 64
      = ((n.rotations.get i).get j).toNat % 64 := by
  unfold residue
  rw [Network.mk.injEq]
  simp only [map_eq_map_iff_get, ← UInt32.toNat_inj, UInt32.toNat_mod]
  rfl

end Network

namespace Schedule

open State RotationRing

structure Residues where
  networks : Vector Network 2
  substitution : Substitution
  mix : UInt64
  roundKeys : Vector UInt16 84
  deriving DecidableEq

def residues (s : Schedule) : Residues where
  networks := s.networks.map Network.residue
  substitution := s.substitution
  mix := ofAmounts s.rotations.toList
  roundKeys := s.roundKeys.map (· % 1024)

theorem residues_eq_iff (s t : Schedule) :
    s.residues = t.residues
      ↔
    (∀ i : Fin 2, (s.networks.get i).masks = (t.networks.get i).masks
        ∧ ∀ j k : Fin 5, (((s.networks.get i).rotations.get j).get k).toNat % 64
          = (((t.networks.get i).rotations.get j).get k).toNat % 64)
      ∧ s.substitution = t.substitution
      ∧ (∀ k < 64, s.rotations.toList.countP (·.toNat % 64 = k) % 2
        = t.rotations.toList.countP (·.toNat % 64 = k) % 2)
      ∧ ∀ i : Fin 84, (s.roundKeys.get i).toNat % 1024 = (t.roundKeys.get i).toNat % 1024 := by
  unfold residues
  rw [Residues.mk.injEq]
  rw [map_eq_map_iff_get]
  rw [map_eq_map_iff_get]
  rw [ofAmounts_eq_iff]
  simp only [Network.residue_eq_iff, ← UInt16.toNat_inj, UInt16.toNat_mod]
  rfl

theorem residue_networks_eq {s t : Schedule} (h : s.residues = t.residues) (i : Nat) (hi : i < 2) :
    s.networks[i].residue = t.networks[i].residue := by
  have := congrArg (fun r => r.networks[i]) h
  simpa [residues] using this

theorem apply_networks_eq {s t : Schedule} (h : s.residues = t.residues) (i : Nat) (hi : i < 2) :
    s.networks[i].apply = t.networks[i].apply := by
  rw [← Network.apply_residue]
  rw [residue_networks_eq h i hi]
  rw [Network.apply_residue]

theorem unapply_networks_eq {s t : Schedule} (h : s.residues = t.residues) (i : Nat) (hi : i < 2) :
    s.networks[i].unapply = t.networks[i].unapply := by
  rw [← Network.unapply_residue]
  rw [residue_networks_eq h i hi]
  rw [Network.unapply_residue]

@[simp]
theorem round_mod (s : Schedule) (x : State) (roundKey : UInt16) :
    s.round x (roundKey % 1024) = s.round x roundKey := by
  simp [round]

@[simp]
theorem unround_mod (s : Schedule) (inverse : Substitution) (roundKey : UInt16) (x : State) :
    s.unround inverse (roundKey % 1024) x = s.unround inverse roundKey x := by
  simp [unround]

theorem round_eq {s t : Schedule} (h : s.residues = t.residues) : s.round = t.round := by
  have hsubstitution : s.substitution = t.substitution := congrArg Residues.substitution h
  have hmix : ofAmounts s.rotations.toList = ofAmounts t.rotations.toList :=
    congrArg Residues.mix h
  funext x roundKey
  unfold round
  rw [apply_networks_eq h 0]
  rw [apply_networks_eq h 1]
  rw [hsubstitution]
  rw [linearMix_congr hmix]

theorem unround_eq {s t : Schedule} (h : s.residues = t.residues) : s.unround = t.unround := by
  have hmix : ofAmounts s.rotations.toList = ofAmounts t.rotations.toList :=
    congrArg Residues.mix h
  funext inverse roundKey x
  unfold unround
  rw [unapply_networks_eq h 0]
  rw [unapply_networks_eq h 1]
  rw [linearUnmix_congr hmix]

theorem foldl_round_mod (s : Schedule) (x : State) :
    (s.roundKeys.map (· % 1024)).foldl s.round x = s.roundKeys.foldl s.round x := by
  simp [Vector.foldl_map]

theorem foldrM_unround_mod (s : Schedule) (inverse : Substitution) (x : State) :
    (s.roundKeys.map (· % 1024)).foldrM (s.unround inverse) x
      =
    s.roundKeys.foldrM (s.unround inverse) x := by
  simp [Vector.foldrM_map]

theorem encrypt_eq {s t : Schedule} (h : s.residues = t.residues) : s.encrypt = t.encrypt := by
  have hkeys : s.roundKeys.map (· % 1024) = t.roundKeys.map (· % 1024) :=
    congrArg Residues.roundKeys h
  funext plain
  unfold encrypt
  rw [← foldl_round_mod s]
  rw [hkeys]
  rw [round_eq h]
  rw [foldl_round_mod t]

theorem decrypt_eq {s t : Schedule} (h : s.residues = t.residues) : s.decrypt = t.decrypt := by
  have hsubstitution : s.substitution = t.substitution := congrArg Residues.substitution h
  have hkeys : s.roundKeys.map (· % 1024) = t.roundKeys.map (· % 1024) :=
    congrArg Residues.roundKeys h
  have hrounds (inverse : Substitution) (x : State) :
      s.roundKeys.foldrM (s.unround inverse) x = t.roundKeys.foldrM (t.unround inverse) x := by
    rw [← foldrM_unround_mod s]
    rw [hkeys]
    rw [unround_eq h]
    rw [foldrM_unround_mod t]
  funext cipher
  unfold decrypt
  simp only [hsubstitution, hrounds]

theorem hashWith_eq {s t : Schedule} (h : s.residues = t.residues) : s.hashWith = t.hashWith := by
  funext permute data
  unfold hashWith digestWith hashBuffer
  rw [encrypt_eq h]

theorem residues_determine_cipher {s t : Schedule} (h : s.residues = t.residues) :
    s.encrypt = t.encrypt ∧ s.decrypt = t.decrypt ∧ s.hashWith = t.hashWith :=
  ⟨encrypt_eq h, decrypt_eq h, hashWith_eq h⟩

theorem residues_determine_cipher_build_one :
    ∃ s t : Schedule,
      s = { build 1 with rotations := #v[3, 3, 5, 7, 9, 11] }
        ∧ t = { build 1 with
          networks := (build 1).networks.map fun n =>
            { n with rotations := n.rotations.map fun row => row.map (· + 64) }
          rotations := #v[0, 128, 11, 69, 9, 4294967239]
          roundKeys := (build 1).roundKeys.map (· + 32768) }
        ∧ s.residues = t.residues
        ∧ s.encrypt = t.encrypt ∧ s.decrypt = t.decrypt ∧ s.hash = t.hash := by
  have hturn (a : UInt32) : (a + 64).toNat = (a.toNat + 64) % 2 ^ 32 := UInt32.toNat_add a 64
  have hhigh (a : UInt16) : (a + 32768).toNat = (a.toNat + 32768) % 2 ^ 16 :=
    UInt16.toNat_add a 32768
  have h (b : Schedule) (r r' : RotationSet) (hr : ofAmounts r.toList = ofAmounts r'.toList) :
      ({ b with rotations := r } : Schedule).residues
        =
      ({ b with
        networks := b.networks.map fun n =>
          { n with rotations := n.rotations.map fun row => row.map (· + 64) }
        rotations := r'
        roundKeys := b.roundKeys.map (· + 32768) } : Schedule).residues := by
    rw [residues_eq_iff]
    refine ⟨?_, rfl, (ofAmounts_eq_iff _ _).mp hr, ?_⟩
    . intro i
      simp only [Vector.get_eq_getElem, Vector.getElem_map, true_and]
      intro j k
      rw [hturn]
      omega
    . intro i
      simp only [Vector.get_eq_getElem, Vector.getElem_map]
      rw [hhigh]
      omega
  have hresidues := h (build 1) #v[3, 3, 5, 7, 9, 11] #v[0, 128, 11, 69, 9, 4294967239]
    (by decide)
  rcases residues_determine_cipher hresidues with ⟨hencrypt, hdecrypt, hhash⟩
  exact ⟨_, _, rfl, rfl, hresidues, hencrypt, hdecrypt, congrFun hhash _⟩

end Schedule

end EpochCipher
