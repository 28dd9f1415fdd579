import EpochCipher.Schedule
import EpochCipher.Proofs.RotationSet
import EpochCipher.Proofs.Substitution

/-!
This module contains the invariant of a schedule and the proof that the schedule of every key keeps
it, part by part in the order in which the parts are drawn.
-/

namespace EpochCipher

namespace Substitution

theorem map_toNat_smallIdentity : smallIdentity.toList.map UInt8.toNat = List.range 64 := by
  decide

theorem map_toNat_largeIdentity : largeIdentity.toList.map UInt16.toNat = List.range 1024 := by
  apply List.ext_getElem
  . simp [largeSize, largeWidth]
  . intro i h1 h2
    have hi : i < 1024 := by simpa using h2
    simp [largeIdentity]
    omega

structure Permutes (t : Substitution) : Prop where
  small_perm : ∀ i, (t.smallEntries i).toList.Perm (List.range 64)
  large_perm : ∀ i, (t.largeEntries i).toList.Perm (List.range 1024)

theorem permutes_iff (t : Substitution) :
    t.Permutes
      ↔
    (∀ i, (t.smallEntries i).toList.Perm (List.range 64))
      ∧ ∀ i, (t.largeEntries i).toList.Perm (List.range 1024) := by
  constructor
  . intro h
    exact ⟨h.small_perm, h.large_perm⟩
  . intro ⟨hsmall, hlarge⟩
    exact ⟨hsmall, hlarge⟩

theorem isBijective_iff_permutes (t : Substitution) : t.isBijective = true ↔ t.Permutes := by
  rw [isBijective_iff]
  rw [permutes_iff]
  simp only [Table.isBijection_iff, Vector.length_toList]

theorem always_draw : draw.Always Permutes := by
  refine Draw.always_bind (Draw.always_ofFnM fun _ => always_shuffle smallIdentity) ?_
  intro small hsmall
  refine Draw.always_bind (Draw.always_ofFnM fun _ => always_shuffle largeIdentity) ?_
  intro large hlarge
  apply Draw.always_pure
  constructor
  . intro i
    rw [← map_toNat_smallIdentity]
    unfold smallEntries
    rw [Vector.toList_map]
    apply List.Perm.map
    apply hsmall
    apply Vector.getElem_mem
  . intro i
    rw [← map_toNat_largeIdentity]
    unfold largeEntries
    rw [Vector.toList_map]
    apply List.Perm.map
    apply hlarge
    apply Vector.getElem_mem

end Substitution

namespace Network

def RotatesInRange (n : Network) : Prop :=
  ∀ row ∈ n.rotations, ∀ r ∈ row, 1 ≤ r.toNat ∧ r.toNat ≤ 63

theorem always_draw : draw.Always RotatesInRange := by
  have hrotation : Draw.Always (do return (← Draw.bounded 63) + 1)
      fun r => 1 ≤ r.toNat ∧ r.toNat ≤ 63 := by
    refine Draw.always_bind (Draw.always_bounded 63 (by decide)) ?_
    intro r hr
    apply Draw.always_pure
    rw [show (63 : UInt32).toNat = 63 by rfl] at hr
    rw [UInt32.toNat_add]
    rw [show (1 : UInt32).toNat = 1 by rfl]
    omega
  refine Draw.always_bind (P := fun _ => True) (fun _ => trivial) ?_
  intro masks _
  refine Draw.always_bind (Draw.always_ofFnM fun _ => Draw.always_ofFnM fun _ => hrotation) ?_
  intro rotations hrotations
  apply Draw.always_pure
  exact hrotations

end Network

namespace Schedule

structure Invariant (s : Schedule) : Prop where
  substitution : s.substitution.Permutes
  networks : ∀ n ∈ s.networks, n.RotatesInRange
  rotations : RotationSet.Valid s.rotations.toList
  roundKeys : ∀ k ∈ s.roundKeys, k.toNat < 1024

theorem always_draw (key : UInt32) : (draw key).Always Invariant := by
  have hroundKey : Draw.Always (do return (← Draw.bounded 1024).toUInt16)
      fun k => k.toNat < 1024 := by
    refine Draw.always_bind (Draw.always_bounded 1024 (by decide)) ?_
    intro k hk
    apply Draw.always_pure
    rw [show (1024 : UInt32).toNat = 1024 by rfl] at hk
    rw [UInt32.toNat_toUInt16]
    omega
  refine Draw.always_bind Substitution.always_draw ?_
  intro substitution hsubstitution
  refine Draw.always_bind (Draw.always_ofFnM fun _ => Network.always_draw) ?_
  intro networks hnetworks
  refine Draw.always_bind RotationSet.always_draw ?_
  intro rotations hrotations
  refine Draw.always_bind (Draw.always_ofFnM fun _ => hroundKey) ?_
  intro roundKeys hroundKeys
  apply Draw.always_pure
  exact ⟨hsubstitution, hnetworks, hrotations, hroundKeys⟩

theorem validate_cases (s : Schedule) :
    (¬s.substitution.Permutes ∧ s.validate = .error .substitutionNotBijective)
      ∨ (s.substitution.Permutes ∧ ¬RotationSet.Valid s.rotations.toList
        ∧ s.validate = .error .invalidRotationSet)
      ∨ (s.substitution.Permutes ∧ RotationSet.Valid s.rotations.toList
        ∧ s.validate = .ok ()) := by
  rw [← Substitution.isBijective_iff_permutes]
  rw [← RotationSet.isValid_iff]
  unfold validate
  cases s.substitution.isBijective with
  | false => simp
  | true =>
    cases RotationSet.isValid s.rotations.toList with
    | false => simp
    | true => simp

theorem validate_eq_ok_iff (s : Schedule) :
    s.validate = .ok () ↔ s.substitution.Permutes ∧ RotationSet.Valid s.rotations.toList := by
  rcases validate_cases s with ⟨htables, h⟩ | ⟨_, hrotations, h⟩ | ⟨htables, hrotations, h⟩
  . simp [h, htables]
  . simp [h, hrotations]
  . simp [h, htables, hrotations]

theorem validate_eq_invalidRotationSet_iff (s : Schedule) :
    s.validate = .error .invalidRotationSet
      ↔
    s.substitution.Permutes ∧ ¬RotationSet.Valid s.rotations.toList := by
  rcases validate_cases s with ⟨htables, h⟩ | ⟨htables, hrotations, h⟩ | ⟨_, hrotations, h⟩
  . simp [h, htables]
  . simp [h, htables, hrotations]
  . simp [h, hrotations]

theorem validate_eq_substitutionNotBijective_iff (s : Schedule) :
    s.validate = .error .substitutionNotBijective ↔ s.substitution.isBijective = false := by
  rw [← Bool.not_eq_true]
  rw [Substitution.isBijective_iff_permutes]
  rcases validate_cases s with ⟨htables, h⟩ | ⟨htables, _, h⟩ | ⟨htables, _, h⟩
  . simp [h, htables]
  . simp [h, htables]
  . simp [h, htables]

theorem isBijective_build (key : UInt32) : (build key).substitution.isBijective = true := by
  rw [Substitution.isBijective_iff_permutes]
  exact (always_draw key (.ofSeed key)).substitution

theorem isValid_rotations_build (key : UInt32) :
    RotationSet.isValid (build key).rotations.toList = true := by
  rw [RotationSet.isValid_iff]
  exact (always_draw key (.ofSeed key)).rotations

theorem build_invariant_and_validate (key : UInt32) :
    (build key).Invariant ∧ (build key).validate = .ok () := by
  have hinvariant : (build key).Invariant := always_draw key (.ofSeed key)
  refine ⟨hinvariant, ?_⟩
  rw [validate_eq_ok_iff]
  exact ⟨hinvariant.substitution, hinvariant.rotations⟩

/--
The check names the first invariant that is broken, and each of its parts decides the property that
it stands for, whatever the length of the table or of the list of amounts.
-/
theorem validate_decides_invariants (s : Schedule) :
    (s.validate = .error .substitutionNotBijective
        ↔ (∃ i, ¬(s.substitution.smallEntries i).toList.Perm (List.range 64))
          ∨ ∃ i, ¬(s.substitution.largeEntries i).toList.Perm (List.range 1024))
      ∧ (s.validate = .error .invalidRotationSet
        ↔ s.substitution.Permutes ∧ ¬RotationSet.Valid s.rotations.toList)
      ∧ (s.validate = .ok () ↔ s.substitution.Permutes ∧ RotationSet.Valid s.rotations.toList)
      ∧ (∀ table : List Nat,
        Table.isBijection table = true ↔ table.Perm (List.range table.length))
      ∧ ∀ amounts : List UInt32,
        (RotationSet.sum amounts).toNat = (amounts.map UInt32.toNat).sum % 2 ^ 32
          ∧ (RotationSet.isValid amounts = true ↔ RotationSet.Valid amounts) := by
  refine ⟨?_, validate_eq_invalidRotationSet_iff s, validate_eq_ok_iff s, Table.isBijection_iff, ?_⟩
  . rw [validate_eq_substitutionNotBijective_iff]
    rw [← Bool.not_eq_true]
    rw [Substitution.isBijective_iff_permutes]
    rw [Substitution.permutes_iff]
    rw [Classical.not_and_iff_not_or_not]
    rw [Classical.not_forall]
    rw [Classical.not_forall]
  . intro amounts
    exact ⟨RotationSet.toNat_sum amounts, RotationSet.isValid_iff amounts⟩

end Schedule

end EpochCipher
