import EpochCipher.Dimensions
import EpochCipher.Fault

/-!
This module contains the clock that divides time into epochs of equal length. The key of an epoch is
the time at which it starts.
-/

namespace EpochCipher

structure EpochClock where
  /-- Seconds in an epoch. -/
  interval : UInt32
  interval_ne_zero : interval ≠ 0
  deriving DecidableEq

namespace EpochClock

def mainnet : EpochClock where
  interval := mainnetInterval
  interval_ne_zero := by decide

instance : Inhabited EpochClock where
  default := mainnet

def ofInterval (interval : UInt32) : Except Fault EpochClock :=
  if h : interval = 0 then
    .error .invalidInterval
  else
    .ok { interval, interval_ne_zero := h }

def keyAt (c : EpochClock) (time : UInt32) : UInt32 :=
  time - time % c.interval

def describe (c : EpochClock) : String :=
  "OdoParams \x7b shapechange_interval: " ++ toString c.interval.toNat ++ " \x7d"

end EpochClock

end EpochCipher
