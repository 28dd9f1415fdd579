import EpochCipher.Cache.Run
import Mathlib.Data.List.Induction

/-!
This module contains what a lookup does to a cache and what every run of a cache keeps: the slots
hold the last two builds since the cache was cleared, with different keys.
-/

namespace EpochCipher

@[simp]
theorem Build.key_mk (n : Nat) (s : Schedule) :
    ({ number := n, schedule := s } : Build).key = s.key := by
  rfl

theorem Build.key_build (n : Nat) (key : UInt32) :
    ({ number := n, schedule := Schedule.build key } : Build).key = key := by
  simp

@[simp]
theorem Event.builtKey?_ofBuild (s : Schedule) : (Event.ofBuild s).builtKey? = some s.key := by
  rfl

namespace Cache

open Event

@[simp]
theorem mem_cached (c : Cache) (b : Build) :
    b ∈ c.cached ↔ c.current = some b ∨ c.previous = some b := by
  simp [cached]

theorem mem_cachedKeys (c : Cache) (key : UInt32) :
    some key ∈ c.cachedKeys ↔ c.currentKey = some key ∨ c.previousKey = some key := by
  simp [cachedKeys, eq_comm]

theorem mem_cachedKeys_iff_exists (c : Cache) (key : UInt32) :
    some key ∈ c.cachedKeys ↔ ∃ b ∈ c.cached, b.key = key := by
  rw [mem_cachedKeys]
  unfold currentKey previousKey
  rw [Option.map_eq_some_iff]
  rw [Option.map_eq_some_iff]
  simp only [mem_cached]
  constructor
  . intro h
    rcases h with ⟨b, hb, hkey⟩ | ⟨b, hb, hkey⟩
    . exact ⟨b, .inl hb, hkey⟩
    . exact ⟨b, .inr hb, hkey⟩
  . intro ⟨b, hb, hkey⟩
    cases hb with
    | inl hb => exact .inl ⟨b, hb, hkey⟩
    | inr hb => exact .inr ⟨b, hb, hkey⟩

theorem cachedKeys_ne_of_current_eq_none {c : Cache} (h : c.current = none) (key : UInt32) :
    c.cachedKeys ≠ #v[some key, some key] := by
  simp [cachedKeys, currentKey, h]

theorem mem_cached_of_find {c : Cache} {key : UInt32} {b : Build} (h : c.find key = some b) :
    b ∈ c.cached :=
  List.mem_of_find?_eq_some h

theorem key_of_find {c : Cache} {key : UInt32} {b : Build} (h : c.find key = some b) :
    b.key = key := by
  have := List.find?_some h
  simpa using this

theorem find_eq_none_iff (c : Cache) (key : UInt32) :
    c.find key = none ↔ some key ∉ c.cachedKeys := by
  rw [mem_cachedKeys_iff_exists]
  simp [find]

theorem get_of_find {c : Cache} {key : UInt32} {b : Build} (h : c.find key = some b) :
    c.get key = ({ build := b, events := [.hit key] }, c) := by
  unfold get
  rw [h]

theorem get_of_mem {c : Cache} {key : UInt32} (h : some key ∈ c.cachedKeys) :
    ∃ b, c.find key = some b ∧ c.get key = ({ build := b, events := [.hit key] }, c) := by
  have hsome : c.find key ≠ none := by
    rw [Ne]
    rw [find_eq_none_iff]
    exact not_not_intro h
  rcases Option.ne_none_iff_exists'.mp hsome with ⟨b, hfind⟩
  exact ⟨b, hfind, get_of_find hfind⟩

theorem get_of_not_mem {c : Cache} {key : UInt32} (h : some key ∉ c.cachedKeys) :
    c.get key = c.insert key := by
  have hnone : c.find key = none := (find_eq_none_iff c key).mpr h
  unfold get
  rw [hnone]
  dsimp only
  unfold findOrInsert
  rw [hnone]

theorem hashWith_eq (c : Cache) (permute : Keccak.Lanes → Keccak.Lanes) (clock : EpochClock)
    (time : UInt32) (data : Array UInt8) :
    c.hashWith permute clock time data
      =
    (((c.get (clock.keyAt time)).1.build.schedule.hashWith permute data,
      (c.get (clock.keyAt time)).1.events), (c.get (clock.keyAt time)).2) := rfl

theorem serve_of_key? {request : Request} {key : UInt32} (h : request.key? = some key)
    (c : Cache) : c.serve request = ((c.get key).1.events, (c.get key).2) := by
  cases request with
  | get _ =>
    cases h
    rfl
  | hash _ _ _ =>
    cases h
    rfl
  | clear | currentKey | cachedKeys => contradiction

theorem Request.isClear_of_key? {request : Request} {key : UInt32}
    (h : request.key? = some key) : request.isClear = false := by
  cases request with
  | clear => contradiction
  | get _ | hash _ _ _ | currentKey | cachedKeys => rfl

@[simp]
theorem builtKeys_insert (c : Cache) (key : UInt32) :
    (c.insert key).1.events.filterMap Event.builtKey? = [key] := by
  have hbuilt : (Event.ofBuild (Schedule.build key)).builtKey? = some key := by simp
  unfold insert
  dsimp only
  rw [List.filterMap_cons_none rfl]
  rw [List.filterMap_cons_some hbuilt]
  rfl

@[simp]
theorem cachedKeys_insert (c : Cache) (key : UInt32) :
    (c.insert key).2.cachedKeys = #v[some key, c.currentKey] := by
  have hkey : (c.insert key).2.currentKey = some key := by
    unfold insert currentKey
    dsimp only [Option.map_some]
    rw [Build.key_build]
  exact congrArg (fun k => #v[k, c.currentKey]) hkey

namespace Log

@[simp]
theorem builtKeys_cons (call : Call) (log : Log) :
    builtKeys (call :: log) = call.events.filterMap Event.builtKey? ++ builtKeys log := by
  unfold builtKeys
  rw [List.flatMap_cons]

theorem sinceClear_cons (call : Call) (log : Log) :
    sinceClear (call :: log) = if call.request.isClear then [] else call :: sinceClear log := by
  unfold sinceClear
  rw [List.takeWhile_cons]
  cases call.request.isClear with
  | true => rfl
  | false => rfl

theorem builds_of_builtKeys {log log' : Log} {key : UInt32}
    (h : builtKeys log' = key :: builtKeys log) :
    builds log'
      =
    { number := (builtKeys log).length, schedule := Schedule.build key } :: builds log := by
  unfold builds
  rw [h]
  rw [builds.go]

@[simp]
theorem map_key_builds (log : Log) : (builds log).map Build.key = builtKeys log := by
  unfold builds
  induction builtKeys log with
  | nil => rfl
  | cons key older ih =>
    rw [builds.go]
    simp [ih]

theorem exists_of_mem_builds {log : Log} {b : Build} (h : b ∈ builds log) :
    ∃ n key, n < (builtKeys log).length ∧ b = { number := n, schedule := Schedule.build key } := by
  unfold builds at h
  generalize builtKeys log = keys at h ⊢
  induction keys with
  | nil => contradiction
  | cons key older ih =>
    rw [builds.go] at h
    rw [List.mem_cons] at h
    rw [List.length_cons]
    cases h with
    | inl h => exact ⟨older.length, key, Nat.lt_succ_self _, h⟩
    | inr h =>
      rcases ih h with ⟨n, key, hlt, hb⟩
      exact ⟨n, key, Nat.lt_succ_of_lt hlt, hb⟩

theorem schedule_of_mem_builds {log : Log} {b : Build} (h : b ∈ builds log) :
    b.schedule = Schedule.build b.key := by
  rcases exists_of_mem_builds h with ⟨n, key, _, hb⟩
  simp [hb]

theorem number_lt_of_mem_builds {log : Log} {b : Build} (h : b ∈ builds log) :
    b.number < (builtKeys log).length := by
  rcases exists_of_mem_builds h with ⟨n, key, hlt, hb⟩
  rw [hb]
  exact hlt

/-- The builds after the last time the cache was cleared, the last one first. -/
def recentBuilds (log : Log) : List Build :=
  (builds log).take (builtKeys (sinceClear log)).length

theorem map_key_recentBuilds (log : Log) :
    (recentBuilds log).map Build.key = builtKeys (sinceClear log) := by
  have happend : builtKeys log
      = builtKeys (sinceClear log)
        ++ builtKeys (log.dropWhile fun call => !call.request.isClear) := by
    unfold builtKeys sinceClear
    rw [← List.flatMap_append]
    rw [List.takeWhile_append_dropWhile]
  unfold recentBuilds
  rw [List.map_take]
  rw [map_key_builds]
  rw [happend]
  rw [List.take_left]

theorem recentBuilds_of_isClear (call : Call) (h : call.request.isClear = true) (log : Log) :
    recentBuilds (call :: log) = [] := by
  unfold recentBuilds
  rw [sinceClear_cons]
  rw [if_pos h]
  rfl

theorem recentBuilds_of_silent (call : Call) (hclear : call.request.isClear = false)
    (h : call.events.filterMap Event.builtKey? = []) (log : Log) :
    recentBuilds (call :: log) = recentBuilds log := by
  have hbuilt : builtKeys (call :: log) = builtKeys log := by
    rw [builtKeys_cons]
    rw [h]
    rfl
  unfold recentBuilds builds
  rw [sinceClear_cons]
  rw [if_neg (by simp [hclear])]
  rw [builtKeys_cons]
  rw [h]
  rw [hbuilt]
  rfl

theorem recentBuilds_of_built (call : Call) (hclear : call.request.isClear = false)
    {key : UInt32} (h : call.events.filterMap Event.builtKey? = [key]) (log : Log) :
    recentBuilds (call :: log)
      =
    { number := (builtKeys log).length, schedule := Schedule.build key } :: recentBuilds log := by
  have hbuilt (log : Log) : builtKeys (call :: log) = key :: builtKeys log := by
    rw [builtKeys_cons]
    rw [h]
    rfl
  unfold recentBuilds
  rw [sinceClear_cons]
  rw [if_neg (by simp [hclear])]
  rw [hbuilt]
  rw [builds_of_builtKeys (hbuilt log)]
  rw [List.length_cons]
  rw [List.take_succ_cons]

end Log

namespace Run

open Log

/-- What every run keeps: the slots hold the last two builds since the cache was cleared. -/
structure Tracks (r : Run) : Prop where
  builds_eq : r.cache.builds = (builtKeys r.log).length
  current_eq : r.cache.current = (recentBuilds r.log)[0]?
  previous_eq : r.cache.previous = (recentBuilds r.log)[1]?
  keys_ne : ∀ key, r.cache.cachedKeys ≠ #v[some key, some key]

theorem Tracks.cached_eq {r : Run} (h : r.Tracks) :
    r.cache.cached = (recentBuilds r.log).take 2 := by
  unfold cached
  rw [h.current_eq]
  rw [h.previous_eq]
  match recentBuilds r.log with
  | [] => rfl
  | [_] => rfl
  | _ :: _ :: _ => rfl

theorem Tracks.schedule_of_find {r : Run} (h : r.Tracks) {key : UInt32} {b : Build}
    (hfind : r.cache.find key = some b) : b.schedule = Schedule.build key := by
  have hmem := mem_cached_of_find hfind
  rw [h.cached_eq] at hmem
  rw [← key_of_find hfind]
  exact schedule_of_mem_builds (List.mem_of_mem_take (List.mem_of_mem_take hmem))

theorem Tracks.serve_silent {r : Run} (h : r.Tracks) {request : Request} {events : List Event}
    (hclear : request.isClear = false) (hevents : events.filterMap Event.builtKey? = []) :
    Tracks { log := { request, events } :: r.log, cache := r.cache } := by
  have hrecent := recentBuilds_of_silent { request, events } hclear hevents r.log
  constructor
  . rw [builtKeys_cons]
    rw [hevents]
    exact h.builds_eq
  . rw [hrecent]
    exact h.current_eq
  . rw [hrecent]
    exact h.previous_eq
  . exact h.keys_ne

theorem Tracks.serve_built {r : Run} (h : r.Tracks) {request : Request} {key : UInt32}
    (hclear : request.isClear = false) (hnot : some key ∉ r.cache.cachedKeys) :
    Tracks
      { log := { request, events := (r.cache.insert key).1.events } :: r.log
        cache := (r.cache.insert key).2 } := by
  have hevents := builtKeys_insert r.cache key
  have hrecent := recentBuilds_of_built
    { request, events := (r.cache.insert key).1.events } hclear hevents r.log
  constructor
  . rw [builtKeys_cons]
    rw [hevents]
    rw [List.length_append]
    rw [← h.builds_eq]
    exact Nat.add_comm _ _
  . rw [hrecent]
    rw [List.getElem?_cons_zero]
    rw [← h.builds_eq]
    rfl
  . rw [hrecent]
    rw [List.getElem?_cons_succ]
    exact h.current_eq
  . -- Were both keys equal, the new one would have been cached already.
    intro other heq
    apply hnot
    rw [cachedKeys_insert] at heq
    simp only [Vector.mk.injEq, Array.mk.injEq, List.cons.injEq, and_true] at heq
    rw [heq.left]
    rw [← heq.right]
    simp [cachedKeys]

theorem Tracks.serve_clear {r : Run} (h : r.Tracks) : (r.serve .clear).Tracks := by
  have hrecent := recentBuilds_of_isClear { request := .clear, events := [] } rfl r.log
  constructor
  . exact h.builds_eq
  . exact (congrArg (·[0]?) hrecent).symm
  . exact (congrArg (·[1]?) hrecent).symm
  . exact cachedKeys_ne_of_current_eq_none rfl

theorem Tracks.serve_lookup {r : Run} (h : r.Tracks) {request : Request} {key : UInt32}
    (hkey : request.key? = some key) : (r.serve request).Tracks := by
  have hclear := request.isClear_of_key? hkey
  unfold serve
  rw [serve_of_key? hkey]
  dsimp only
  by_cases hmem : some key ∈ r.cache.cachedKeys
  . rcases get_of_mem hmem with ⟨b, _, hget⟩
    rw [hget]
    exact h.serve_silent hclear rfl
  . rw [get_of_not_mem hmem]
    exact h.serve_built hclear hmem

theorem Tracks.serve {r : Run} (h : r.Tracks) (request : Request) : (r.serve request).Tracks := by
  cases request with
  | get key => exact h.serve_lookup rfl
  | hash clock time data => exact h.serve_lookup rfl
  | clear => exact h.serve_clear
  | currentKey => exact h.serve_silent rfl rfl
  | cachedKeys => exact h.serve_silent rfl rfl

end Run

theorem run_concat (requests : List Request) (request : Request) :
    run (requests ++ [request]) = (run requests).serve request := by
  unfold run
  rw [List.foldl_append]
  rfl

theorem tracks_run (requests : List Request) : (run requests).Tracks := by
  -- A run grows at its end: the induction takes off the last request.
  induction requests using List.reverseRecOn with
  | nil => exact ⟨rfl, rfl, rfl, cachedKeys_ne_of_current_eq_none rfl⟩
  | append_singleton requests request ih =>
    rw [run_concat]
    exact ih.serve request

end Cache

end EpochCipher
