import EpochCipher.Cache.Shared
import EpochCipher.Proofs.Cache
import EpochCipher.Proofs.Vector

/-!
This module contains the proof that threads share a cache as if every request was served at once, in
the section with which it ends: whatever happens between the sections of a lookup, the one that
writes looks the key up again.
-/

namespace EpochCipher

namespace Cache

theorem get_of_read {c : Cache} {key : UInt32} {reply : Reply} (h : c.read key = some reply) :
    c.get key = (reply, c) := by
  unfold read at h
  rw [Option.map_eq_some_iff] at h
  rcases h with ⟨b, hfind, hreply⟩
  rw [get_of_find hfind]
  rw [hreply]

theorem findOrInsert_eq_get (c : Cache) (key : UInt32) :
    (c.findOrInsert key).1.build = (c.get key).1.build
      ∧ (c.findOrInsert key).2 = (c.get key).2 := by
  unfold get
  cases hfind : c.find key with
  | none => exact ⟨rfl, rfl⟩
  | some b =>
    unfold findOrInsert
    rw [hfind]
    exact ⟨rfl, rfl⟩

theorem answer_of_key? {request : Request} {key : UInt32} (h : request.key? = some key)
    (c : Cache) : c.answer request = (some (c.get key).1.build, (c.get key).2) := by
  unfold answer
  rw [serve_of_key? h]
  rw [h]
  rfl

theorem answer_of_none {request : Request} (h : request.key? = none) (c : Cache) :
    c.answer request = (none, (c.serve request).2) := by
  unfold answer
  rw [h]
  rfl

theorem answers_cons (c : Cache) (request : Request) (requests : List Request) :
    c.answers (request :: requests)
      =
    ((c.answer request).1 :: ((c.answer request).2.answers requests).1,
      ((c.answer request).2.answers requests).2) := rfl

@[simp]
theorem answers_append (c : Cache) (as bs : List Request) :
    c.answers (as ++ bs)
      =
    ((c.answers as).1 ++ ((c.answers as).2.answers bs).1, ((c.answers as).2.answers bs).2) := by
  induction as generalizing c with
  | nil => rfl
  | cons request as ih =>
    rw [List.cons_append]
    rw [answers_cons]
    rw [answers_cons]
    rw [ih]
    rfl

namespace Thread

theorem step_idle_of_none {request : Request} (h : request.key? = none) (requests : List Request)
    (c : Cache) :
    (idle (request :: requests)).step c
      =
    { ended := some { request, reply := none }
      thread := idle requests
      cache := (c.serve request).2 } := by
  simp only [step]
  split
  . rfl
  . next key hkey =>
    rw [h] at hkey
    contradiction

theorem step_idle_of_key? {request : Request} {key : UInt32} (h : request.key? = some key)
    (requests : List Request) (c : Cache) :
    (idle (request :: requests)).step c
      =
    match c.read key with
    | some reply =>
      { ended := some { request, reply := some reply }, thread := idle requests, cache := c }
    | none => { ended := none, thread := missed request key h requests, cache := c } := by
  simp only [step]
  split
  . next hkey =>
    rw [h] at hkey
    contradiction
  . next key' hkey =>
    rw [h] at hkey
    cases hkey
    rfl

/-- The first request of a thread ends, as if it took place in this section alone. -/
structure Ends (c : Cache) (t : Thread) (e : Ended) (requests : List Request) : Prop where
  requests_eq : t.requests = e.request :: requests
  build_eq : e.build? = (c.answer e.request).1
  step_eq : t.step c
    = { ended := some e, thread := idle requests, cache := (c.answer e.request).2 }

structure Misses (c : Cache) (t : Thread) (request : Request) (requests : List Request) :
    Prop where
  eq_idle : t = idle (request :: requests)
  step_eq : ∃ key h,
    t.step c = { ended := none, thread := missed request key h requests, cache := c }

theorem step_cases (c : Cache) (t : Thread) :
    t = idle []
      ∨ (∃ request requests, Misses c t request requests)
      ∨ ∃ e requests, Ends c t e requests := by
  cases t with
  | idle requests =>
    cases requests with
    | nil => exact .inl rfl
    | cons request requests =>
      cases hkey : request.key? with
      | none =>
        refine .inr (.inr ⟨{ request, reply := none }, requests, rfl, ?_, ?_⟩)
        . rw [answer_of_none hkey]
          rfl
        . rw [answer_of_none hkey]
          exact step_idle_of_none hkey requests c
      | some key =>
        have hstep := step_idle_of_key? hkey requests c
        cases hread : c.read key with
        | none =>
          rw [hread] at hstep
          exact .inr (.inl ⟨request, requests, rfl, key, hkey, hstep⟩)
        | some reply =>
          rw [hread] at hstep
          refine .inr (.inr ⟨{ request, reply := some reply }, requests, rfl, ?_, ?_⟩)
          . rw [answer_of_key? hkey]
            rw [get_of_read hread]
            rfl
          . rw [answer_of_key? hkey]
            rw [get_of_read hread]
            exact hstep
  | missed request key h requests =>
    -- Whatever the first section has seen, the one that writes does all that a lookup does.
    have hwrite := findOrInsert_eq_get c key
    refine .inr (.inr
      ⟨{ request, reply := some (c.findOrInsert key).1 }, requests, rfl, ?_, ?_⟩)
    . rw [answer_of_key? h]
      rw [← hwrite.left]
      rfl
    . rw [answer_of_key? h]
      rw [← hwrite.right]
      rfl

@[simp]
theorem answers_step (c : Cache) (t : Thread) :
    c.answers ((t.step c).ended.toList.map Ended.request)
      =
    ((t.step c).ended.toList.map Ended.build?, (t.step c).cache) := by
  rcases step_cases c t with hidle | ⟨request, requests, hmisses⟩ | ⟨e, requests, hends⟩
  . rw [hidle]
    rfl
  . rcases hmisses.step_eq with ⟨key, h, hstep⟩
    rw [hstep]
    rfl
  . rw [hends.step_eq]
    rw [Option.toList_some]
    rw [List.map_singleton]
    rw [List.map_singleton]
    rw [answers_cons]
    rw [hends.build_eq]
    rfl

theorem requests_step (c : Cache) (t : Thread) :
    (t.step c).ended.toList.map Ended.request ++ (t.step c).thread.requests = t.requests := by
  rcases step_cases c t with hidle | ⟨request, requests, hmisses⟩ | ⟨e, requests, hends⟩
  . rw [hidle]
    rfl
  . rcases hmisses.step_eq with ⟨key, h, hstep⟩
    rw [hstep]
    rw [hmisses.eq_idle]
    rfl
  . rw [hends.step_eq]
    rw [hends.requests_eq]
    rfl

end Thread

namespace Shared

@[simp]
theorem cache_step (s : Shared n) (i : Fin n) :
    (s.step i).cache = ((s.threads.get i).step s.cache).cache := rfl

@[simp]
theorem get_threads_step (s : Shared n) (i j : Fin n) :
    (s.step i).threads.get j
      =
    if i = j then ((s.threads.get i).step s.cache).thread else s.threads.get j := by
  rw [Vector.get_eq_getElem]
  simp only [step, Vector.getElem_set, Fin.val_inj, Vector.get_eq_getElem]

structure Replays (c : Cache) (programs : Vector (List Request) n) (s : Shared n) : Prop where
  answers_eq : c.answers s.requests = (s.builds, s.cache)
  requests_eq : ∀ i, s.requestsOf i ++ (s.threads.get i).requests = programs.get i

@[simp]
theorem requests_step (s : Shared n) (i : Fin n) :
    (s.step i).requests
      =
    s.requests ++ ((s.threads.get i).step s.cache).ended.toList.map Ended.request := by
  unfold step requests
  dsimp only
  rw [List.map_append]
  rw [List.map_map]
  rfl

@[simp]
theorem builds_step (s : Shared n) (i : Fin n) :
    (s.step i).builds
      =
    s.builds ++ ((s.threads.get i).step s.cache).ended.toList.map Ended.build? := by
  unfold step builds
  dsimp only
  rw [List.map_append]
  rw [List.map_map]
  rfl

@[simp]
theorem requestsOf_step (s : Shared n) (i j : Fin n) :
    (s.step i).requestsOf j
      =
    s.requestsOf j
      ++ if i = j then ((s.threads.get i).step s.cache).ended.toList.map Ended.request else [] := by
  unfold step requestsOf
  dsimp only
  rw [List.filter_append]
  rw [List.map_append]
  rw [List.filter_map]
  rw [List.map_map]
  congr 1
  split
  . next h =>
    rw [List.filter_eq_self.mpr]
    . rfl
    . intro e he
      exact decide_eq_true h
  . next h =>
    rw [List.filter_eq_nil_iff.mpr]
    . rfl
    . intro e he
      simpa using h

theorem Replays.step {c : Cache} {programs : Vector (List Request) n} {s : Shared n}
    (h : Replays c programs s) (i : Fin n) : Replays c programs (s.step i) := by
  constructor
  . simp [h.answers_eq]
  . intro j
    rw [requestsOf_step]
    rw [get_threads_step]
    rw [← h.requests_eq j]
    split
    . next heq =>
      rw [heq]
      rw [List.append_assoc]
      rw [Thread.requests_step]
    . rw [List.append_nil]

end Shared

open Shared

end Cache

end EpochCipher
