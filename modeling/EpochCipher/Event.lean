import EpochCipher.Schedule

/-!
This module contains the events that building schedules and looking them up gives rise to, and the
texts under which they are logged.
-/

namespace EpochCipher

inductive Event where
  | hit (key : UInt32)
  /-- A schedule is about to be built, for which the one with the key `evicted` leaves the cache. -/
  | building (key : UInt32) (evicted : Option UInt32)
  | built (key : UInt32) (rotations : RotationSet)
  deriving DecidableEq

namespace Event

def ofBuild (s : Schedule) : Event :=
  .built s.key s.rotations

def level : Event → String
  | hit _ => "TRACE"
  | building _ _ => "DEBUG"
  | built _ _ => "DEBUG"

def message : Event → String
  | hit _ => "odocrypt cache hit"
  | building _ _ => "building odocrypt schedule"
  | built _ _ => "built odocrypt schedule"

def keyText : Option UInt32 → String
  | none => "None"
  | some key => "Some(" ++ toString key.toNat ++ ")"

def fields : Event → List (String × String)
  | hit key => [("epoch_key", toString key.toNat)]
  | building key evicted =>
    [("epoch_key", toString key.toNat), ("evicted", keyText evicted)]
  | built key rotations =>
    [("epoch_key", toString key.toNat), ("rotations", Schedule.listText rotations.toList)]

end Event

end EpochCipher
