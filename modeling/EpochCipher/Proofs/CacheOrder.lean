import EpochCipher.Proofs.Cache
import Mathlib.Data.List.Nodup
import Mathlib.Data.List.Perm.Subperm

/-!
This module contains the proof that the cache is a buffer of the last two builds, first in and first
out: a lookup that finds its key leaves the slots as they are, one that does not moves the builds on
by one slot, and the log names the key that leaves.
-/

namespace EpochCipher

namespace Cache

open Log

theorem previousKey_eq_iff {c : Cache} {key : UInt32} (hnot : some key ∉ c.cachedKeys)
    (hne : ∀ key, c.cachedKeys ≠ #v[some key, some key]) (k : UInt32) :
    c.previousKey = some k
      ↔
    some k ∈ c.cachedKeys ∧ some k ∉ (c.insert key).2.cachedKeys := by
  have hafter : some k ∈ (c.insert key).2.cachedKeys ↔ k = key ∨ c.currentKey = some k := by
    simp [eq_comm]
  rw [hafter]
  rw [mem_cachedKeys]
  constructor
  . intro hprevious
    refine ⟨.inr hprevious, ?_⟩
    intro h
    cases h with
    | inl hkey =>
      apply hnot
      rw [← hkey]
      rw [mem_cachedKeys]
      exact .inr hprevious
    | inr hcurrent =>
      apply hne k
      unfold cachedKeys
      rw [hcurrent]
      rw [hprevious]
  . intro ⟨hbefore, hgone⟩
    cases hbefore with
    | inl hcurrent => exact absurd (.inr hcurrent) hgone
    | inr hprevious => exact hprevious

namespace Run

structure Finds (r : Run) (key : UInt32) : Prop where
  cache_eq : (r.cache.get key).2 = r.cache
  events_eq : (r.cache.get key).1.events = [.hit key]
  build_eq : r.log.lastBuild? key = some (r.cache.get key).1.build

/-- A lookup that makes a build of its own. It logs the key that is cached before and not after. -/
structure Builds (r : Run) (key : UInt32) : Prop where
  build_eq : (r.cache.get key).1.build
    = { number := r.log.builtKeys.length, schedule := Schedule.build key }
  number_ne : ∀ b ∈ r.log.builds, b.number ≠ (r.cache.get key).1.build.number
  events_eq : ∃ evicted,
    (r.cache.get key).1.events = [.building key evicted, .ofBuild (Schedule.build key)]
      ∧ ∀ k, evicted = some k
        ↔ some k ∈ r.cache.cachedKeys ∧ some k ∉ (r.cache.get key).2.cachedKeys

def recentKeys (r : Run) : List UInt32 :=
  r.log.sinceClear.builtKeys

theorem Tracks.currentKey_eq {r : Run} (h : r.Tracks) : r.cache.currentKey = r.recentKeys[0]? := by
  unfold currentKey recentKeys
  rw [h.current_eq]
  rw [← map_key_recentBuilds]
  rw [List.getElem?_map]

theorem Tracks.previousKey_eq {r : Run} (h : r.Tracks) :
    r.cache.previousKey = r.recentKeys[1]? := by
  unfold previousKey recentKeys
  rw [h.previous_eq]
  rw [← map_key_recentBuilds]
  rw [List.getElem?_map]

theorem Tracks.cachedKeys_eq {r : Run} (h : r.Tracks) :
    r.cache.cachedKeys = #v[r.recentKeys[0]?, r.recentKeys[1]?] := by
  unfold cachedKeys
  rw [h.currentKey_eq]
  rw [h.previousKey_eq]

theorem Tracks.lastBuild_of_find {r : Run} (h : r.Tracks) {key : UInt32} {b : Build}
    (hfind : r.cache.find key = some b) : r.log.lastBuild? key = some b := by
  unfold find at hfind
  rw [h.cached_eq] at hfind
  unfold recentBuilds at hfind
  rw [List.take_take] at hfind
  unfold lastBuild?
  rw [← List.take_append_drop (min 2 (builtKeys (sinceClear r.log)).length) r.log.builds]
  rw [List.find?_append]
  rw [hfind]
  rfl

theorem Tracks.finds {r : Run} (h : r.Tracks) {key : UInt32}
    (hmem : some key ∈ r.cache.cachedKeys) : r.Finds key := by
  rcases get_of_mem hmem with ⟨b, hfind, hget⟩
  constructor
  . rw [hget]
  . rw [hget]
  . rw [hget]
    exact h.lastBuild_of_find hfind

theorem Tracks.builds {r : Run} (h : r.Tracks) {key : UInt32}
    (hnot : some key ∉ r.cache.cachedKeys) : r.Builds key := by
  have hbuild : (r.cache.get key).1.build
      = { number := r.log.builtKeys.length, schedule := Schedule.build key } := by
    rw [get_of_not_mem hnot]
    rw [← h.builds_eq]
    rfl
  refine ⟨hbuild, ?_, r.cache.previousKey, ?_, ?_⟩
  . intro b hb
    rw [hbuild]
    exact Nat.ne_of_lt (number_lt_of_mem_builds hb)
  . rw [get_of_not_mem hnot]
    rfl
  . rw [get_of_not_mem hnot]
    exact previousKey_eq_iff hnot h.keys_ne

theorem recentKeys_serve_of_key? (r : Run) {request : Request} {key : UInt32}
    (hkey : request.key? = some key) :
    (r.serve request).recentKeys
      =
    if some key ∈ r.cache.cachedKeys then r.recentKeys else key :: r.recentKeys := by
  have hclear : ¬request.isClear = true := by
    rw [request.isClear_of_key? hkey]
    decide
  unfold recentKeys serve
  rw [serve_of_key? hkey]
  dsimp only
  rw [sinceClear_cons]
  rw [if_neg hclear]
  rw [builtKeys_cons]
  split
  . next hmem =>
    rcases get_of_mem hmem with ⟨b, _, hget⟩
    rw [hget]
    rfl
  . next hnot =>
    rw [get_of_not_mem hnot]
    rw [builtKeys_insert]
    rfl

theorem recentKeys_serve_of_none (r : Run) {request : Request} (hkey : request.key? = none)
    (hclear : request.isClear = false) : (r.serve request).recentKeys = r.recentKeys := by
  cases request with
  | get _ | hash _ _ _ | clear => contradiction
  | currentKey | cachedKeys => rfl

theorem recentKeys_serve_of_isClear (r : Run) {request : Request}
    (hclear : request.isClear = true) : (r.serve request).recentKeys = [] := by
  unfold recentKeys serve
  dsimp only
  rw [sinceClear_cons]
  rw [if_pos hclear]
  rfl

theorem Tracks.not_mem_recentKeys {r : Run} (h : r.Tracks) (hlength : r.recentKeys.length ≤ 2)
    {key : UInt32} (hnot : some key ∉ r.cache.cachedKeys) : key ∉ r.recentKeys := by
  intro hmem
  apply hnot
  rw [h.cachedKeys_eq]
  rcases List.mem_iff_getElem?.mp hmem with ⟨i, hi⟩
  have hlt : i < 2 := by
    have := (List.getElem?_eq_some_iff.mp hi).choose
    omega
  match i with
  | 0 => simp [hi]
  | 1 => simp [hi]

end Run

theorem Request.keysSinceClear_concat (requests : List Request) (request : Request) :
    keysSinceClear (requests ++ [request])
      =
    if request.isClear then [] else request.key?.toList ++ keysSinceClear requests := by
  unfold keysSinceClear
  rw [List.reverse_append]
  rw [List.reverse_singleton]
  rw [List.singleton_append]
  rw [List.takeWhile_cons]
  cases request.isClear with
  | true => rfl
  | false =>
    rw [if_neg Bool.false_ne_true]
    rw [if_pos Bool.not_false]
    cases hkey : request.key? with
    | none =>
      rw [List.filterMap_cons_none hkey]
      rfl
    | some key =>
      rw [List.filterMap_cons_some hkey]
      rfl

open Request Run

theorem recentKeys_subset (requests : List Request) :
    (run requests).recentKeys ⊆ keysSinceClear requests := by
  induction requests using List.reverseRecOn with
  | nil => exact List.nil_subset _
  | append_singleton requests request ih =>
    rw [keysSinceClear_concat]
    rw [run_concat]
    cases hclear : request.isClear with
    | true =>
      rw [recentKeys_serve_of_isClear _ hclear]
      exact List.nil_subset _
    | false =>
      rw [if_neg Bool.false_ne_true]
      cases hkey : request.key? with
      | none =>
        rw [recentKeys_serve_of_none _ hkey hclear]
        exact ih
      | some key =>
        rw [recentKeys_serve_of_key? _ hkey]
        split
        . exact List.subset_cons_of_subset key ih
        . exact List.cons_subset_cons key ih

theorem nodup_recentKeys (requests : List Request) {a b : UInt32}
    (htwo : keysSinceClear requests ⊆ [a, b]) : (run requests).recentKeys.Nodup := by
  induction requests using List.reverseRecOn with
  | nil => exact List.nodup_nil
  | append_singleton requests request ih =>
    rw [keysSinceClear_concat] at htwo
    rw [run_concat]
    cases hclear : request.isClear with
    | true =>
      rw [recentKeys_serve_of_isClear _ hclear]
      exact List.nodup_nil
    | false =>
      rw [hclear] at htwo
      rw [if_neg Bool.false_ne_true] at htwo
      have hbefore := List.Subset.trans (List.subset_append_right _ _) htwo
      cases hkey : request.key? with
      | none =>
        rw [recentKeys_serve_of_none _ hkey hclear]
        exact ih hbefore
      | some key =>
        rw [recentKeys_serve_of_key? _ hkey]
        split
        . exact ih hbefore
        . next hnot =>
          -- Distinct keys out of two are no more than two, so that all builds are still cached.
          have hsubset := List.Subset.trans (recentKeys_subset requests) hbefore
          have hlength := (List.subperm_of_subset (ih hbefore) hsubset).length_le
          rw [List.nodup_cons]
          exact ⟨(tracks_run requests).not_mem_recentKeys hlength hnot, ih hbefore⟩

/--
After every run of requests, the cached keys are those of the last two builds since the cache was
cleared. They are different, and the current slot is filled first. A lookup builds if and only if
its key is not cached; otherwise it finds the last build of the key and changes nothing. A hash
looks the key of its epoch up in the same way. As long as no more than two keys are looked up, none
of them is built twice.
-/
theorem keeps_last_two_builds (requests : List Request) :
    (run requests).cache.cachedKeys
        = #v[(run requests).recentKeys[0]?, (run requests).recentKeys[1]?]
      ∧ (∀ key, (run requests).cache.cachedKeys ≠ #v[some key, some key])
      ∧ ¬((run requests).cache.currentKey = none ∧ (run requests).cache.previousKey ≠ none)
      ∧ (∀ key, if some key ∈ (run requests).cache.cachedKeys then (run requests).Finds key
        else (run requests).Builds key)
      ∧ (∀ clock time data,
        ((run requests).cache.hash clock time data).1.2
            = ((run requests).cache.get (clock.keyAt time)).1.events
          ∧ ((run requests).cache.hash clock time data).2
            = ((run requests).cache.get (clock.keyAt time)).2)
      ∧ ∀ a b, (∀ key ∈ keysSinceClear requests, key = a ∨ key = b) →
        ∀ key, (run requests).recentKeys.count key ≤ 1 := by
  have htracks := tracks_run requests
  refine ⟨htracks.cachedKeys_eq, htracks.keys_ne, ?_, ?_, ?_, ?_⟩
  . rw [htracks.currentKey_eq]
    rw [htracks.previousKey_eq]
    intro ⟨hcurrent, hprevious⟩
    apply hprevious
    rw [List.getElem?_eq_none_iff] at hcurrent ⊢
    omega
  . intro key
    split
    . next hmem => exact htracks.finds hmem
    . next hnot => exact htracks.builds hnot
  . intro clock time data
    unfold hash
    rw [hashWith_eq]
    exact ⟨rfl, rfl⟩
  . intro a b htwo key
    have hsubset : keysSinceClear requests ⊆ [a, b] := by
      intro other hother
      simpa using htwo other hother
    exact List.nodup_iff_count_le_one.mp (nodup_recentKeys requests hsubset) key

theorem keeps_last_two_builds_alternating :
    (∀ key ∈ keysSinceClear [.get 3, .clear, .get 10, .get 11, .get 10, .get 11],
        key = 10 ∨ key = 11)
      ∧ ∀ key,
        (run [.get 3, .clear, .get 10, .get 11, .get 10, .get 11]).recentKeys.count key ≤ 1 := by
  have htwo : ∀ key ∈ keysSinceClear [.get 3, .clear, .get 10, .get 11, .get 10, .get 11],
      key = 10 ∨ key = 11 := by
    have hkeys : keysSinceClear [.get 3, .clear, .get 10, .get 11, .get 10, .get 11]
        = [11, 10, 11, 10] := rfl
    rw [hkeys]
    simp
  exact ⟨htwo, (keeps_last_two_builds _).right.right.right.right.right 10 11 htwo⟩

end Cache

end EpochCipher
