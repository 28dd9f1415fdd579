import EpochCipher.Cache.Run

/-!
This module contains caches that are shared by threads. A thread serves its requests one after the
other, each in one or two sections that have the cache to themselves; between any two sections of a
thread there may be sections of the others.
-/

namespace EpochCipher

namespace Cache

def read (c : Cache) (key : UInt32) : Option Reply :=
  (c.find key).map fun build => { build, events := [.hit key] }

structure Ended where
  request : Request
  reply : Option Reply

namespace Ended

def build? (e : Ended) : Option Build :=
  e.reply.map Reply.build

end Ended

inductive Thread where
  /-- Between two requests, of which these are still to be served. -/
  | idle (requests : List Request)
  /-- Between the two sections of a lookup that has not found its key. -/
  | missed (request : Request) (key : UInt32) (h : request.key? = some key)
      (requests : List Request)

namespace Thread

def requests : Thread → List Request
  | idle requests => requests
  | missed request _ _ requests => request :: requests

/-- What one section leaves behind: the request that ends with it, if one does. -/
structure Step where
  ended : Option Ended
  thread : Thread
  cache : Cache

def step (c : Cache) : Thread → Step
  | idle [] => { ended := none, thread := idle [], cache := c }
  | idle (request :: requests) =>
    match h : request.key? with
    | none =>
      { ended := some { request, reply := none }
        thread := idle requests
        cache := (c.serve request).2 }
    | some key =>
      match c.read key with
      | some reply =>
        { ended := some { request, reply := some reply }, thread := idle requests, cache := c }
      | none => { ended := none, thread := missed request key h requests, cache := c }
  | missed request key _ requests =>
    let (reply, c) := c.findOrInsert key
    { ended := some { request, reply := some reply }, thread := idle requests, cache := c }

end Thread

structure Shared (n : Nat) where
  cache : Cache
  threads : Vector Thread n
  ended : List (Fin n × Ended)

namespace Shared

def start (c : Cache) (programs : Vector (List Request) n) : Shared n where
  cache := c
  threads := programs.map .idle
  ended := []

def requests (s : Shared n) : List Request :=
  s.ended.map fun e => e.2.request

def builds (s : Shared n) : List (Option Build) :=
  s.ended.map fun e => e.2.build?

def requestsOf (s : Shared n) (i : Fin n) : List Request :=
  (s.ended.filter fun e => e.1 = i).map fun e => e.2.request

def step (s : Shared n) (i : Fin n) : Shared n :=
  let next := (s.threads.get i).step s.cache
  { cache := next.cache
    threads := s.threads.set i next.thread i.isLt
    ended := s.ended ++ next.ended.toList.map fun e => (i, e) }

end Shared

/-- The build that a request is given if it has the cache to itself until it ends. -/
def answer (c : Cache) (request : Request) : Option Build × Cache :=
  (request.key?.map fun key => (c.get key).1.build, (c.serve request).2)

def answers (c : Cache) : List Request → List (Option Build) × Cache
  | [] => ([], c)
  | request :: requests =>
    let (build, c) := c.answer request
    let (builds, c) := c.answers requests
    (build :: builds, c)

end Cache

end EpochCipher
