import EpochCipher.Fault
import EpochCipher.Network
import EpochCipher.RotationSet
import EpochCipher.Substitution

/-!
This module contains the schedule: everything that the cipher derives from the key of an epoch.
-/

namespace EpochCipher

/--
A schedule. `Schedule.build` makes the one that belongs to a key; other values are schedules too,
and `Schedule.validate` tells whether they keep the invariants that the cipher relies on.
-/
structure Schedule where
  key : UInt32
  networks : Vector Network 2
  substitution : Substitution
  rotations : RotationSet
  roundKeys : Vector UInt16 roundCount
  deriving DecidableEq

namespace Schedule

def draw (key : UInt32) : Draw Schedule := do
  let substitution ← Substitution.draw
  let networks ← Vector.ofFnM fun _ => Network.draw
  let rotations ← RotationSet.draw
  let roundKeys ← Vector.ofFnM fun _ => return (← Draw.bounded 1024).toUInt16
  return { key, networks, substitution, rotations, roundKeys }

def build (key : UInt32) : Schedule :=
  (draw key).eval (.ofSeed key)

@[simp]
theorem key_build (key : UInt32) : (build key).key = key := by
  rw [build]
  rw [Draw.eval_eq]
  rw [draw]
  rw [Draw.run_bind]
  rw [Draw.run_bind]
  rw [Draw.run_bind]
  rw [Draw.run_bind]
  rw [Draw.run_pure]

def validate (s : Schedule) : Except Fault Unit :=
  if !s.substitution.isBijective then
    .error .substitutionNotBijective
  else if !RotationSet.isValid s.rotations.toList then
    .error .invalidRotationSet
  else
    .ok ()

def listText (ns : List UInt32) : String :=
  "[" ++ ", ".intercalate (ns.map fun n => toString n.toNat) ++ "]"

def describe (s : Schedule) : String :=
  "Schedule \x7b key: " ++ toString s.key.toNat ++ ", rotations: "
    ++ listText s.rotations.toList ++ ", .. \x7d"

end Schedule

end EpochCipher
