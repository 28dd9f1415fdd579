import EpochCipher.Schedule.Edit
import EpochCipher.Proofs.Collision

/-!
This module contains what a single change makes of a schedule that passes its check. A permutation
with one entry changed is no permutation any more, so that the check sees every change of a table, and
so does the cipher. Masks, rotations of a network and round keys are nothing that it looks at.
-/

namespace EpochCipher

theorem set_perm_iff {xs : List Nat} {i : Nat} (h : i < xs.length) (v : Nat) :
    (xs.set i v).Perm xs ↔ v = xs[i] := by
  have hsplit : ∃ before behind, xs = before ++ xs[i] :: behind ∧ before.length = i
      ∧ xs.set i v = before ++ v :: behind :=
    List.exists_of_set h
  rcases hsplit with ⟨before, behind, hxs, _, hset⟩
  rw [hset]
  conv =>
    lhs
    rhs
    rw [hxs]
  rw [List.perm_append_left_iff]
  change ([v] ++ behind).Perm ([xs[i]] ++ behind) ↔ v = xs[i]
  rw [List.perm_append_right_iff]
  rw [List.singleton_perm_singleton]

@[simp]
theorem get_alter_self (xs : Vector α n) (i : Fin n) (f : α → α) :
    (alter xs i f).get i = f (xs.get i) := by
  simp [Vector.get_eq_getElem]

theorem alter_eq_self {xs : Vector α n} {i : Fin n} {f : α → α} (h : f (xs.get i) = xs.get i) :
    alter xs i f = xs := by
  apply Vector.ext
  intro j hj
  rw [getElem_alter]
  split
  . next heq =>
    subst heq
    exact h
  . rfl

namespace Table

theorem alter_eq_self_of_isBijection {table : Vector α n} {f : α → Nat} (hf : Function.Injective f)
    {i : Fin n} {v : α} (h : isBijection (table.map f).toList = true)
    (halter : isBijection ((alter table i fun _ => v).map f).toList = true) :
    alter table i (fun _ => v) = table := by
  rw [isBijection_iff] at h
  rw [isBijection_iff] at halter
  rw [Vector.length_toList] at h
  rw [Vector.length_toList] at halter
  have hi : i.val < (table.map f).toList.length := by simp
  have hset : ((alter table i fun _ => v).map f).toList = (table.map f).toList.set i (f v) := by
    rw [alter]
    rw [Vector.map_set]
    rw [Vector.toList_set]
  have hperm : ((table.map f).toList.set i (f v)).Perm (table.map f).toList := by
    rw [← hset]
    exact halter.trans h.symm
  apply alter_eq_self
  apply hf
  rw [(set_perm_iff hi (f v)).mp hperm]
  simp [Vector.get_eq_getElem]

end Table

namespace Substitution

theorem edit_eq_self_of_isBijective {t : Substitution} (h : t.isBijective = true) (e : Edit)
    (hedit : (t.edit e).isBijective = true) : t.edit e = t := by
  rw [isBijective_iff] at h
  rw [isBijective_iff] at hedit
  cases e with
  | small table entry value =>
    have htable := hedit.left table
    rw [smallEntries] at htable
    rw [edit] at htable
    rw [get_alter_self] at htable
    have hrow := Table.alter_eq_self_of_isBijection (fun _ _ => UInt8.toNat_inj.mp)
      (h.left table) htable
    rw [edit]
    rw [alter_eq_self hrow]
  | large table entry value =>
    have htable := hedit.right table
    rw [largeEntries] at htable
    rw [edit] at htable
    rw [get_alter_self] at htable
    have hrow := Table.alter_eq_self_of_isBijection (fun _ _ => UInt16.toNat_inj.mp)
      (h.right table) htable
    rw [edit]
    rw [alter_eq_self hrow]

theorem isBijective_edit_iff {t : Substitution} (h : t.isBijective = true) (e : Edit) :
    (t.edit e).isBijective = true ↔ t.edit e = t := by
  constructor
  . exact edit_eq_self_of_isBijective h e
  . intro heq
    rw [heq]
    exact h

end Substitution

namespace Schedule

variable {s : Schedule}

theorem validate_edit (h : s.validate = .ok ()) (e : Edit) :
    (s.edit e).validate
      =
    match e with
    | .table e =>
      if s.substitution.edit e = s.substitution then .ok () else .error .substitutionNotBijective
    | .network _ _ => .ok ()
    | .rotations value =>
      if RotationSet.isValid value.toList = true then .ok () else .error .invalidRotationSet
    | .roundKey _ _ => .ok () := by
  rw [validate_eq_ok_iff] at h
  rw [← Substitution.isBijective_iff_permutes] at h
  rw [← RotationSet.isValid_iff] at h
  rcases h with ⟨htables, hrotations⟩
  cases e with
  | table e =>
    simp only [← Substitution.isBijective_edit_iff htables e]
    unfold validate edit
    cases (s.substitution.edit e).isBijective with
    | false => simp
    | true => simp [hrotations]
  | network i e => simp [validate, edit, htables, hrotations]
  | rotations value =>
    cases hvalue : RotationSet.isValid value.toList with
    | false => simp [validate, edit, htables, hvalue]
    | true => simp [validate, edit, htables, hvalue]
  | roundKey round value => simp [validate, edit, htables, hrotations]

theorem encrypt_edit_injective_iff (h : s.substitution.isBijective = true)
    (e : Substitution.Edit) :
    Function.Injective (s.edit (.table e)).encrypt ↔ s.substitution.edit e = s.substitution := by
  rw [encrypt_injective_iff]
  exact Substitution.isBijective_edit_iff h e

end Schedule

end EpochCipher
