import EpochCipher.Schedule

/-!
This module contains single changes to the parts of a schedule and of its tables. A changed schedule
need not be that of any key.
-/

namespace EpochCipher

def alter (xs : Vector α n) (i : Fin n) (f : α → α) : Vector α n :=
  xs.set i (f (xs.get i)) i.isLt

@[simp]
theorem getElem_alter (xs : Vector α n) (i : Fin n) (f : α → α) (j : Nat) (hj : j < n) :
    (alter xs i f)[j] = if i.val = j then f xs[j] else xs[j] := by
  by_cases h : i.val = j
  . subst h
    simp [alter, Vector.get]
  . simp [alter, h]

namespace Substitution

inductive Edit where
  | small (table : Fin 40) (entry : Fin 64) (value : UInt8)
  | large (table : Fin 10) (entry : Fin 1024) (value : UInt16)

def edit (t : Substitution) : Edit → Substitution
  | .small table entry value =>
    { t with small := alter t.small table fun xs => alter xs entry fun _ => value }
  | .large table entry value =>
    { t with large := alter t.large table fun xs => alter xs entry fun _ => value }

end Substitution

namespace Network

inductive Edit where
  | mask (row : Fin 6) (pair : Fin 5) (value : UInt64)
  | rotation (row : Fin 5) (pair : Fin 5) (value : UInt32)

def edit (n : Network) : Edit → Network
  | .mask row pair value =>
    { n with masks := alter n.masks row fun xs => alter xs pair fun _ => value }
  | .rotation row pair value =>
    { n with rotations := alter n.rotations row fun xs => alter xs pair fun _ => value }

end Network

namespace Schedule

inductive Edit where
  | table (edit : Substitution.Edit)
  | network (network : Fin 2) (edit : Network.Edit)
  | rotations (value : RotationSet)
  | roundKey (round : Fin 84) (value : UInt16)

def edit (s : Schedule) : Edit → Schedule
  | .table e => { s with substitution := s.substitution.edit e }
  | .network i e => { s with networks := alter s.networks i fun n => n.edit e }
  | .rotations value => { s with rotations := value }
  | .roundKey round value => { s with roundKeys := alter s.roundKeys round fun _ => value }

end Schedule

end EpochCipher
