import EpochCipher.Proofs.Cipher

/-!
This module contains the proof that only bijective tables give a cipher without collisions. An
injective substitution is onto. A word with nothing but the value `v` in one field can then only
come from a word whose entry for this field is exactly `v`, so that the table of the field has every
value.
-/

namespace EpochCipher

namespace Substitution

theorem entry_lt_two_pow (t : Substitution) (w : Fin 10) (f : Fin 8) (v : Nat)
    (hv : v < 2 ^ fieldWidth f.val) : t.entry w f v < 2 ^ (fieldWidth f.val + 6) := by
  by_cases hf : f.val % 2 = 0
  . rw [fieldWidth_of_even hf] at hv ⊢
    rw [entry_of_even _ _ _ _ hf hv]
    apply Nat.lt_of_lt_of_le
    . apply UInt8.toNat_lt
    . decide
  . have hodd : f.val % 2 = 1 := by omega
    rw [fieldWidth_of_odd hodd] at hv ⊢
    rw [entry_of_odd _ _ _ _ hodd hv]
    exact (t.large[w.val][v]).toNat_lt

def wordOf (f v : Nat) : UInt64 :=
  UInt64.ofNat (v <<< fieldPos f)

theorem getLsbD_wordOf (f v j : Nat) (hj : j < 64) :
    (wordOf f v).toBitVec.getLsbD j = (decide (fieldPos f ≤ j) && v.testBit (j - fieldPos f)) := by
  unfold wordOf
  rw [UInt64.toBitVec_ofNat']
  rw [BitVec.getLsbD_ofNat]
  rw [Nat.testBit_shiftLeft]
  simp [hj]

theorem fieldOf_wordOf (f : Fin 8) (v : Nat) (hv : v < 2 ^ fieldWidth f.val) :
    fieldOf (wordOf f.val v) f.val = v := by
  apply Nat.eq_of_testBit_eq
  intro i
  rw [testBit_fieldOf]
  by_cases hi : i < fieldWidth f.val
  . have := fieldPos_add_fieldWidth_le_64 f
    rw [getLsbD_wordOf _ _ _ (by omega)]
    simp [hi]
  . rw [testBit_eq_false hv (by omega)]
    simp [hi]

theorem entry_lt_of_applyWord_eq {t : Substitution} {w : Fin 10} {f : Fin 8} {v : Nat}
    {word : UInt64} (hf : f.val < 7) (hv : v < 2 ^ fieldWidth f.val)
    (hword : t.applyWord w word = wordOf f.val v) :
    t.entry w f (fieldOf word f.val) < 2 ^ fieldWidth f.val := by
  have hwide := entry_lt_two_pow t w f (fieldOf word f.val) (fieldOf_lt word f.val)
  apply Nat.lt_pow_two_of_testBit
  intro i hi
  by_cases hspill : i < fieldWidth f.val + 6
  -- A spilt bit stays within the word, where the next fields would show it.
  . have hj : fieldPos f.val + i < 64 := by
      unfold fieldPos
      unfold fieldWidth at hspill
      omega
    have hbit := getLsbD_applyWord t w word (fieldPos f.val + i) hj
    rw [hword] at hbit
    rw [getLsbD_wordOf _ _ _ hj] at hbit
    rw [Nat.add_sub_cancel_left] at hbit
    rw [testBit_eq_false hv hi] at hbit
    rw [Bool.eq_false_iff]
    intro hset
    rw [← setsBit_fieldPos_add] at hset
    have := hbit.mpr ⟨f, hset⟩
    simp at this
  . exact testBit_eq_false hwide (by omega)

theorem entry_eq_of_applyWord_eq {t : Substitution} {w : Fin 10} {f : Fin 8} {v : Nat}
    {word : UInt64} (hf : f.val < 7) (hv : v < 2 ^ fieldWidth f.val)
    (hlower : ∀ g < f, t.entry w g (fieldOf word g.val) < 2 ^ fieldWidth g.val)
    (hword : t.applyWord w word = wordOf f.val v) : t.entry w f (fieldOf word f.val) = v := by
  have hfield := fieldOf_applyWord t w word f hlower
  rw [hword] at hfield
  rw [fieldOf_wordOf f v hv] at hfield
  rw [Nat.mod_eq_of_lt (entry_lt_of_applyWord_eq hf hv hword)] at hfield
  exact hfield.symm

theorem applyWord_injective {t : Substitution} (h : Function.Injective t.apply) (w : Fin 10) :
    Function.Injective (t.applyWord w) := by
  intro u v huv
  let holding : UInt64 → State := fun word => (Vector.replicate 10 0).set w.val word
  have hstates : holding u = holding v := by
    apply h
    apply Vector.ext
    intro i hi
    simp only [getElem_apply]
    by_cases hiw : w.val = i
    . subst hiw
      simpa [holding] using huv
    . simp [holding, hiw]
  have := congrArg (fun x : State => x[w.val]) hstates
  simpa [holding] using this

theorem isBijection_fieldTable_of_injective {t : Substitution} (h : Function.Injective t.apply)
    (w : Fin 10) (f : Nat) (hf : f < 7) :
    Table.isBijection (t.fieldTable w ⟨f, by omega⟩) = true := by
  have hsurj : Function.Surjective (t.applyWord w) :=
    Finite.injective_iff_surjective.mp (applyWord_injective h w)
  -- The lower fields do not spill, because their tables are bijections by induction.
  induction f using Nat.strongRecOn with
  | ind f ih =>
    apply Table.isBijection_of_range_subset
    intro v hv
    rw [List.mem_range] at hv
    rw [length_fieldTable] at hv
    rcases hsurj (wordOf f v) with ⟨word, hword⟩
    have hentry : t.entry w ⟨f, by omega⟩ (fieldOf word f) = v := by
      apply entry_eq_of_applyWord_eq hf hv
      . intro g hg
        apply entry_lt (ih g.val hg (by omega))
        apply fieldOf_lt
      . exact hword
    rw [← hentry]
    apply entry_mem_fieldTable
    apply fieldOf_lt

theorem isBijective_of_injective {t : Substitution} (h : Function.Injective t.apply) :
    t.isBijective = true := by
  rw [isBijective_iff]
  constructor
  . intro i
    have htable :=
      isBijection_fieldTable_of_injective h ⟨i.val / 4, by omega⟩ (2 * (i.val % 4)) (by omega)
    have hindex : (⟨4 * (i.val / 4) + 2 * (i.val % 4) / 2, by omega⟩ : Fin 40) = i := by
      apply Fin.ext
      dsimp only
      omega
    unfold fieldTable at htable
    dsimp only at htable
    rw [if_pos (by omega)] at htable
    rw [hindex] at htable
    exact htable
  . intro i
    exact isBijection_fieldTable_of_injective h i 1 (by omega)

end Substitution

namespace Schedule

open State

/-- The block that comes out of the first network `n` of a cipher as `x`. -/
def blockOf (n : Network) (x : State) : Block :=
  pack (preMix (n.unapply x))

@[simp]
theorem preMix_unpack_blockOf (n : Network) (x : State) :
    preMix (unpack (blockOf n x)) = n.unapply x := by
  simp [blockOf]

theorem blockOf_injective (n : Network) : Function.Injective (blockOf n) := by
  intro x y h
  rw [← Network.apply_unapply n x]
  rw [← preMix_unpack_blockOf]
  rw [h]
  rw [preMix_unpack_blockOf]
  rw [Network.apply_unapply]

theorem exists_encrypt_blockOf_eq (s : Schedule) : ∃ n : Network, ∀ x y : State,
    s.substitution.apply x = s.substitution.apply y →
    s.encrypt (blockOf n x) = s.encrypt (blockOf n y) := by
  refine ⟨s.networks[0], ?_⟩
  intro x y h
  have hround : ∀ roundKey, s.round (s.networks[0].unapply x) roundKey
      = s.round (s.networks[0].unapply y) roundKey := by
    intro roundKey
    simp [round, h]
  unfold encrypt
  simp only [preMix_unpack_blockOf, ← Vector.foldl_toList]
  have hlength := s.roundKeys.length_toList
  cases hkeys : s.roundKeys.toList with
  | nil =>
    rw [hkeys] at hlength
    contradiction
  | cons roundKey roundKeys =>
    -- The states are the same after the first round, and so from then on.
    rw [List.foldl_cons]
    rw [List.foldl_cons]
    rw [hround]

theorem encrypt_injective_iff (s : Schedule) :
    Function.Injective s.encrypt ↔ s.substitution.isBijective = true := by
  constructor
  . intro h
    rcases exists_encrypt_blockOf_eq s with ⟨n, hn⟩
    apply Substitution.isBijective_of_injective
    intro x y hxy
    apply blockOf_injective n
    apply h
    exact hn x y hxy
  . exact encrypt_injective

theorem exists_collision_iff (s : Schedule) :
    ((∃ a b : Block, a ≠ b ∧ s.encrypt a = s.encrypt b)
        ↔ (∃ i, Table.isBijection (s.substitution.smallEntries i).toList = false)
          ∨ ∃ i, Table.isBijection (s.substitution.largeEntries i).toList = false)
      ∧ ((∃ a b : Block, a ≠ b ∧ s.encrypt a = s.encrypt b)
        ↔ s.validate = .error .substitutionNotBijective) := by
  have hcollision : (∃ a b : Block, a ≠ b ∧ s.encrypt a = s.encrypt b)
      ↔ s.substitution.isBijective = false := by
    rw [← Bool.not_eq_true]
    rw [← encrypt_injective_iff]
    rw [Function.not_injective_iff]
    constructor
    . intro ⟨a, b, hne, heq⟩
      exact ⟨a, b, heq, hne⟩
    . intro ⟨a, b, heq, hne⟩
      exact ⟨a, b, hne, heq⟩
  rw [hcollision]
  refine ⟨?_, ?_⟩
  . rw [← Bool.not_eq_true]
    rw [Substitution.isBijective_iff]
    rw [Classical.not_and_iff_not_or_not]
    simp
  . exact (validate_eq_substitutionNotBijective_iff s).symm

end Schedule

end EpochCipher
