import EpochCipher.Proofs.Bits
import EpochCipher.Proofs.LinearMix
import EpochCipher.Proofs.Schedule

/-!
This module contains the diffusion of the linear mix: with the amounts of a rotation set that passes
the check, the flip of one bit changes seven bits, and every bit changes with seven others. As the
amounts are distinct and less than the bits of a word, no two rotations of a bit meet and cancel.
-/

namespace EpochCipher

namespace RotationSet

def shift (r : UInt32) : Fin 64 :=
  ⟨r.toNat % 64, Nat.mod_lt _ (by decide)⟩

def shifts (amounts : List UInt32) : Finset (Fin 64) :=
  (amounts.map shift).toFinset

namespace Valid

variable {amounts : List UInt32}

theorem nodup_shifts (h : Valid amounts) : (amounts.map shift).Nodup := by
  apply List.Nodup.map_on _ h.nodup
  intro r hr s hs heq
  have hr' := h.mem_range r hr
  have hs' := h.mem_range s hs
  have hval : r.toNat % 64 = s.toNat % 64 := congrArg Fin.val heq
  apply UInt32.toNat_inj.mp
  omega

theorem card_shifts (h : Valid amounts) : (shifts amounts).card = amounts.length := by
  unfold shifts
  rw [List.toFinset_card_of_nodup h.nodup_shifts]
  rw [List.length_map]

theorem getLsbD_ofAmounts_iff (h : Valid amounts) (k : Fin 64) :
    (RotationRing.ofAmounts amounts).toBitVec.getLsbD k.val = true ↔ k ∈ shifts amounts := by
  have hcount : amounts.countP (·.toNat % 64 = k.val) = (amounts.map shift).count k := by
    rw [List.count_eq_countP]
    rw [List.countP_map]
    apply List.countP_congr
    intro r _
    simp [shift, Fin.ext_iff]
  rw [RotationRing.getLsbD_ofAmounts amounts k.val k.isLt]
  rw [hcount]
  unfold shifts
  rw [List.mem_toFinset]
  rw [← List.count_pos_iff]
  have hle := List.nodup_iff_count_le_one.mp h.nodup_shifts k
  omega

end Valid

end RotationSet

namespace State

open RotationRing

def flip (x : State) (p : Place) : State :=
  x.set p.1.val (x.get p.1 ^^^ monomial p.2.val)

@[simp]
theorem get_flip (x : State) (p : Place) (w : Fin 10) :
    (x.flip p).get w = x.get w ^^^ if w = p.1 then monomial p.2.val else 0 := by
  rw [Vector.get_eq_getElem]
  unfold flip
  rw [Vector.getElem_set]
  by_cases h : w = p.1
  . subst h
    simp
  . have hne : p.1.val ≠ w.val := by
      intro heq
      exact h (Fin.ext heq.symm)
    simp [h, hne, Vector.get_eq_getElem]

theorem getLsbD_rotl_fin (v : UInt64) (k b : Fin 64) :
    (Word.rotl v k.val).toBitVec.getLsbD b.val = v.toBitVec.getLsbD (b - k).val := by
  rw [Word.getLsbD_rotl _ _ _ b.isLt]
  congr 1
  rw [Fin.sub_def]
  dsimp only
  omega

@[simp]
theorem bit_flip (x : State) (p q : Place) : (x.flip p).bit q = (x.bit q ^^ decide (q = p)) := by
  unfold bit
  simp only [get_flip, UInt64.toBitVec_xor, BitVec.getLsbD_xor]
  congr 1
  by_cases h : q.1 = p.1
  . rw [if_pos h]
    rw [getLsbD_monomial]
    simp [Prod.ext_iff, h]
  . rw [if_neg h]
    simp [Prod.ext_iff, h]

theorem get_linearMix_flip (rotations : Vector UInt32 6) (x : State) (p : Place) (w : Fin 10) :
    (linearMix rotations (x.flip p)).get w
      =
    (linearMix rotations x).get w ^^^ ((if w + 1 = p.1 then monomial p.2.val else 0)
      ^^^ if w = p.1 then Word.rotl (ofAmounts rotations.toList) p.2.val else 0) := by
  have hproduct : mul (ofAmounts rotations.toList) (if w = p.1 then monomial p.2.val else 0)
      = if w = p.1 then Word.rotl (ofAmounts rotations.toList) p.2.val else 0 := by
    rw [RotationRing.mul_comm]
    split
    . simp
    . simp
  simp only [get_linearMix, get_flip, mul_xor, hproduct]
  ac_rfl

@[simp]
theorem xor_ne_left_iff (a b : Bool) : (a ^^ b) ≠ a ↔ b = true := by
  decide +revert

theorem bit_linearMix_flip_ne_iff (rotations : Vector UInt32 6) (x : State) (p q : Place) :
    (linearMix rotations (x.flip p)).bit q ≠ (linearMix rotations x).bit q
      ↔
    q = (p.1 - 1, p.2)
      ∨ q.1 = p.1 ∧ (ofAmounts rotations.toList).toBitVec.getLsbD (q.2 - p.2).val = true := by
  have hne : p.1 + 1 ≠ p.1 := add_ne_left.mpr (by decide)
  unfold bit
  simp only [get_linearMix_flip, UInt64.toBitVec_xor, BitVec.getLsbD_xor, xor_ne_left_iff]
  rw [Prod.ext_iff]
  rw [eq_sub_iff_add_eq]
  by_cases hword : q.1 = p.1
  . rw [hword]
    rw [if_neg hne]
    rw [if_pos rfl]
    rw [getLsbD_rotl_fin]
    simp [hne]
  . rw [if_neg hword]
    by_cases hnext : q.1 + 1 = p.1
    . rw [if_pos hnext]
      rw [getLsbD_monomial]
      simp [hword, hnext]
    . rw [if_neg hnext]
      simp [hword, hnext]

/-- The places of the bits of `f x` that change as the bit of `x` at `p` is flipped. -/
def changedBy (f : State → State) (x : State) (p : Place) : Finset Place :=
  Finset.univ.filter fun q => (f (x.flip p)).bit q ≠ (f x).bit q

/-- The places of the bits of `x` whose flip changes the bit of `f x` at `q`. -/
def changing (f : State → State) (x : State) (q : Place) : Finset Place :=
  Finset.univ.filter fun p => (f (x.flip p)).bit q ≠ (f x).bit q

theorem changedBy_id (x : State) (p : Place) : changedBy id x p = {p} := by
  ext q
  simp [changedBy]

/--
Where the linear mix takes the bit at `p`: to its own place in the word before, with word 9 before
word 0, and in the word itself as far to the left as each amount says.
-/
def mixTargets (rotations : RotationSet) (p : Place) : Finset Place :=
  insert (p.1 - 1, p.2) ((RotationSet.shifts rotations.toList).image fun k => (p.1, p.2 + k))

def mixSources (rotations : RotationSet) (q : Place) : Finset Place :=
  insert (q.1 + 1, q.2) ((RotationSet.shifts rotations.toList).image fun k => (q.1, q.2 - k))

theorem mem_insert_image_iff {f g : Fin 64 → Fin 64} (h : ∀ k b, f k = b ↔ k = g b) (a p : Place)
    (w : Fin 10) (ks : Finset (Fin 64)) :
    p ∈ insert a (ks.image fun k => (w, f k)) ↔ p = a ∨ p.1 = w ∧ g p.2 ∈ ks := by
  rw [Finset.mem_insert]
  rw [Finset.mem_image]
  simp only [Prod.ext_iff, h]
  constructor
  . rintro (ha | ⟨k, hk, hw, rfl⟩)
    . exact Or.inl ha
    . exact Or.inr ⟨hw.symm, hk⟩
  . rintro (ha | ⟨hw, hk⟩)
    . exact Or.inl ha
    . exact Or.inr ⟨_, hk, hw.symm, rfl⟩

theorem mem_mixTargets_iff (rotations : RotationSet) (p q : Place) :
    q ∈ mixTargets rotations p
      ↔
    q = (p.1 - 1, p.2) ∨ q.1 = p.1 ∧ q.2 - p.2 ∈ RotationSet.shifts rotations.toList :=
  mem_insert_image_iff (fun _ _ => eq_sub_iff_add_eq'.symm) _ _ _ _

theorem mem_mixSources_iff (rotations : RotationSet) (p q : Place) :
    p ∈ mixSources rotations q ↔ q ∈ mixTargets rotations p := by
  have hsub : ∀ k b : Fin 64, q.2 - k = b ↔ k = q.2 - b := by
    intro k b
    rw [sub_eq_iff_eq_add']
    rw [eq_sub_iff_add_eq]
    rw [eq_comm]
  unfold mixSources
  rw [mem_insert_image_iff hsub]
  rw [mem_mixTargets_iff]
  rw [Prod.ext_iff]
  rw [Prod.ext_iff]
  rw [eq_sub_iff_add_eq]
  rw [eq_comm (a := p.1)]
  rw [eq_comm (a := p.1)]
  rw [eq_comm (a := p.2)]

theorem card_insert_image {w w' : Fin 10} (h : w ≠ w') (b : Fin 64) {f : Fin 64 → Fin 64}
    (hf : Function.Injective f) (ks : Finset (Fin 64)) :
    (insert (w, b) (ks.image fun k => (w', f k))).card = ks.card + 1 := by
  rw [Finset.card_insert_of_notMem]
  . rw [Finset.card_image_of_injective]
    intro k l heq
    apply hf
    exact congrArg Prod.snd heq
  . rw [Finset.mem_image]
    intro ⟨k, _, heq⟩
    exact h (congrArg Prod.fst heq).symm

section

variable {rotations : RotationSet} (h : RotationSet.Valid rotations.toList)
include h

theorem changedBy_linearMix (x : State) (p : Place) :
    changedBy (linearMix rotations) x p = mixTargets rotations p := by
  ext q
  unfold changedBy
  rw [Finset.mem_filter_univ]
  rw [bit_linearMix_flip_ne_iff]
  rw [h.getLsbD_ofAmounts_iff]
  rw [mem_mixTargets_iff]

theorem changing_linearMix (x : State) (q : Place) :
    changing (linearMix rotations) x q = mixSources rotations q := by
  ext p
  rw [mem_mixSources_iff]
  rw [← changedBy_linearMix h x]
  unfold changing changedBy
  rw [Finset.mem_filter_univ]
  rw [Finset.mem_filter_univ]

theorem card_mixTargets (p : Place) : (mixTargets rotations p).card = 7 := by
  have hne : p.1 - 1 ≠ p.1 := mt sub_eq_self.mp (by decide)
  unfold mixTargets
  rw [card_insert_image hne p.2 (add_right_injective p.2)]
  rw [h.card_shifts]
  rw [Vector.length_toList]

theorem card_mixSources (q : Place) : (mixSources rotations q).card = 7 := by
  have hne : q.1 + 1 ≠ q.1 := add_ne_left.mpr (by decide)
  unfold mixSources
  rw [card_insert_image hne q.2 sub_right_injective]
  rw [h.card_shifts]
  rw [Vector.length_toList]

end

theorem linearMix_changes_seven_bits :
    (∀ x p, changedBy id x p = {p})
      ∧ (∀ key, RotationSet.isValid (Schedule.build key).rotations.toList = true)
      ∧ ∀ (rotations : RotationSet) (x : State),
        RotationSet.isValid rotations.toList = true →
          (∀ p, changedBy (linearMix rotations) x p = mixTargets rotations p
            ∧ (mixTargets rotations p).card = 7)
          ∧ ∀ q, changing (linearMix rotations) x q = mixSources rotations q
            ∧ (mixSources rotations q).card = 7 := by
  refine ⟨changedBy_id, Schedule.isValid_rotations_build, ?_⟩
  intro rotations x hvalid
  rw [RotationSet.isValid_iff] at hvalid
  constructor
  . intro p
    exact ⟨changedBy_linearMix hvalid x p, card_mixTargets hvalid p⟩
  . intro q
    exact ⟨changing_linearMix hvalid x q, card_mixSources hvalid q⟩

theorem linearMix_changes_seven_bits_wrapped :
    RotationSet.isValid (#v[1, 63, 2, 62, 32, 3] : RotationSet).toList = true
      ∧ ∀ x : State,
        changedBy (linearMix #v[1, 63, 2, 62, 32, 3]) x (0, 63)
          = {(9, 63), (0, 0), (0, 62), (0, 1), (0, 61), (0, 31), (0, 2)}
        ∧ (mixTargets #v[1, 63, 2, 62, 32, 3] (0, 63)).card = 7
        ∧ changing (linearMix #v[1, 63, 2, 62, 32, 3]) x (9, 0)
          = {(0, 0), (9, 63), (9, 1), (9, 62), (9, 2), (9, 32), (9, 61)}
        ∧ (mixSources #v[1, 63, 2, 62, 32, 3] (9, 0)).card = 7 := by
  have hvalid : RotationSet.isValid (#v[1, 63, 2, 62, 32, 3] : RotationSet).toList = true := by
    decide
  have htargets : mixTargets #v[1, 63, 2, 62, 32, 3] (0, 63)
      = {(9, 63), (0, 0), (0, 62), (0, 1), (0, 61), (0, 31), (0, 2)} := by
    decide
  have hsources : mixSources #v[1, 63, 2, 62, 32, 3] (9, 0)
      = {(0, 0), (9, 63), (9, 1), (9, 62), (9, 2), (9, 32), (9, 61)} := by
    decide
  refine ⟨hvalid, ?_⟩
  intro x
  rcases linearMix_changes_seven_bits.right.right #v[1, 63, 2, 62, 32, 3] x hvalid with
    ⟨hchanged, hchanging⟩
  rcases hchanged (0, 63) with ⟨hflip, hcard⟩
  rcases hchanging (9, 0) with ⟨hflip', hcard'⟩
  exact ⟨hflip.trans htargets, hcard, hflip'.trans hsources, hcard'⟩

end State

end EpochCipher
