import EpochCipher.Cache

/-!
This module contains runs of a cache: requests that are served one after the other, the log of what
they give rise to, and what the log tells about the schedules built so far.

A log lists the latest call first.
-/

namespace EpochCipher

namespace Event

def builtKey? : Event → Option UInt32
  | built key _ => some key
  | _ => none

end Event

namespace Cache

def cachedKeys (c : Cache) : Vector (Option UInt32) 2 :=
  #v[c.currentKey, c.previousKey]

inductive Request where
  | get (key : UInt32)
  | hash (clock : EpochClock) (time : UInt32) (data : Array UInt8)
  | clear
  | currentKey
  | cachedKeys

namespace Request

def isClear : Request → Bool
  | clear => true
  | _ => false

def key? : Request → Option UInt32
  | get key => some key
  | hash clock time _ => some (clock.keyAt time)
  | _ => none

def keysSinceClear (requests : List Request) : List UInt32 :=
  (requests.reverse.takeWhile fun r => !r.isClear).filterMap key?

end Request

def serve (c : Cache) : Request → List Event × Cache
  | .get key =>
    let (reply, c) := c.get key
    (reply.events, c)
  | .hash clock time data =>
    let ((_, events), c) := c.hash clock time data
    (events, c)
  | .clear => ([], c.clear)
  | .currentKey => ([], c)
  | .cachedKeys => ([], c)

structure Call where
  request : Request
  events : List Event

abbrev Log := List Call

namespace Log

def builtKeys (log : Log) : List UInt32 :=
  log.flatMap fun call => call.events.filterMap Event.builtKey?

def sinceClear (log : Log) : Log :=
  log.takeWhile fun call => !call.request.isClear

/-- All builds, the last one first: each has the number of those before it. -/
def builds (log : Log) : List Build :=
  go log.builtKeys
where
  go : List UInt32 → List Build
    | [] => []
    | key :: older => { number := older.length, schedule := Schedule.build key } :: go older

def lastBuild? (log : Log) (key : UInt32) : Option Build :=
  log.builds.find? fun b => b.key == key

end Log

structure Run where
  log : Log
  cache : Cache

namespace Run

def serve (r : Run) (request : Request) : Run :=
  let (events, cache) := r.cache.serve request
  { log := { request, events } :: r.log, cache }

end Run

def run (requests : List Request) : Run :=
  requests.foldl Run.serve { log := [], cache := empty }

end Cache

end EpochCipher
