import EpochCipher.Digest
import EpochCipher.EpochClock
import EpochCipher.Event

/-!
This module contains the cache that keeps the two most recently built schedules, so that requests
around the end of an epoch find both of theirs.

A lookup consists of two sections that may be interrupted by those of other lookups: one that only
reads and ends the lookup if the key is found, and one that looks the key up again and builds its
schedule if it is still absent.
-/

namespace EpochCipher

/-- A schedule in the cache. No two builds have the same number, not even two of the same key. -/
structure Build where
  number : Nat
  schedule : Schedule
  deriving DecidableEq

namespace Build

def key (b : Build) : UInt32 :=
  b.schedule.key

end Build

structure Cache where
  current : Option Build
  previous : Option Build
  builds : Nat
  deriving DecidableEq

namespace Cache

structure Reply where
  build : Build
  events : List Event
  deriving DecidableEq

def empty : Cache where
  current := none
  previous := none
  builds := 0

def cached (c : Cache) : List Build :=
  c.current.toList ++ c.previous.toList

def currentKey (c : Cache) : Option UInt32 :=
  c.current.map Build.key

def previousKey (c : Cache) : Option UInt32 :=
  c.previous.map Build.key

def find (c : Cache) (key : UInt32) : Option Build :=
  c.cached.find? fun b => b.key == key

/--
Build the schedule of a key. It takes the place of the current one, which becomes the previous.
-/
def insert (c : Cache) (key : UInt32) : Reply × Cache :=
  let build := { number := c.builds, schedule := Schedule.build key }
  let events := [.building key c.previousKey, .ofBuild build.schedule]
  ({ build, events }, { current := some build, previous := c.current, builds := c.builds + 1 })

/-- The section that writes: look the key up again, and only then build. -/
def findOrInsert (c : Cache) (key : UInt32) : Reply × Cache :=
  match c.find key with
  | some build => ({ build, events := [] }, c)
  | none => c.insert key

/-- The build of a key, made unless it is cached: both sections, one right after the other. -/
def get (c : Cache) (key : UInt32) : Reply × Cache :=
  match c.find key with
  | some build => ({ build, events := [.hit key] }, c)
  | none => c.findOrInsert key

def clear (c : Cache) : Cache :=
  { c with current := none, previous := none }

def hashWith (c : Cache) (permute : Keccak.Lanes → Keccak.Lanes) (clock : EpochClock)
    (time : UInt32) (data : Array UInt8) : (Except Fault Digest × List Event) × Cache :=
  let (reply, c) := c.get (clock.keyAt time)
  ((reply.build.schedule.hashWith permute data, reply.events), c)

def hash (c : Cache) (clock : EpochClock) (time : UInt32) (data : Array UInt8) :
    (Except Fault Digest × List Event) × Cache :=
  c.hashWith (Keccak.permute closingRounds) clock time data

end Cache

end EpochCipher
