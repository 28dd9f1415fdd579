import EpochCipher.Proofs.Cache
import EpochCipher.Proofs.Digest
import EpochCipher.Proofs.EpochClock

/-!
This module contains the proof that hashes through the cache are those under schedules built afresh,
whatever the cache has been asked for before, and that the data to be hashed has no influence on
what is cached.
-/

namespace EpochCipher

namespace Cache

def keysAfter (key : UInt32) (keys : Vector (Option UInt32) 2) : Vector (Option UInt32) 2 :=
  if some key ∈ keys then keys else #v[some key, keys.head]

theorem cachedKeys_get (c : Cache) (key : UInt32) :
    (c.get key).2.cachedKeys = keysAfter key c.cachedKeys := by
  unfold keysAfter
  split
  . next hmem =>
    rcases get_of_mem hmem with ⟨b, _, hget⟩
    rw [hget]
  . next hnot =>
    rw [get_of_not_mem hnot]
    rw [cachedKeys_insert]
    rfl

theorem Run.Tracks.schedule_get {r : Run} (h : r.Tracks) (key : UInt32) :
    (r.cache.get key).1.build.schedule = Schedule.build key := by
  by_cases hmem : some key ∈ r.cache.cachedKeys
  . rcases get_of_mem hmem with ⟨b, hfind, hget⟩
    rw [hget]
    exact h.schedule_of_find hfind
  . rw [get_of_not_mem hmem]
    rfl

theorem hash_transparent (permute : Keccak.Lanes → Keccak.Lanes) (requests : List Request)
    {interval : UInt32} (h : interval ≠ 0) (time : UInt32) (data : Array UInt8) :
    ∃ clock key, EpochClock.ofInterval interval = .ok clock
      ∧ (∀ n : Int, (interval.toNat : Int) ∣ n ∧ n ≤ time.toNat
        ∧ time.toNat < n + interval.toNat ↔ n = key.toNat)
      ∧ ((run requests).cache.hashWith permute clock time data).1.1
        = (Schedule.build key).hashWith permute data
      ∧ ((run requests).cache.hashWith permute clock time data).2.cachedKeys
        = keysAfter key (run requests).cache.cachedKeys
      ∧ ∀ other, ((run requests).cache.hashWith permute clock time other).2
        = ((run requests).cache.hashWith permute clock time data).2 := by
  let clock : EpochClock := { interval, interval_ne_zero := h }
  refine ⟨clock, clock.keyAt time, EpochClock.ofInterval_eq_ok h, ?_, ?_, ?_, ?_⟩
  . exact clock.starts_epoch_iff time
  . rw [hashWith_eq]
    dsimp only
    rw [(tracks_run requests).schedule_get]
  . rw [hashWith_eq]
    apply cachedKeys_get
  . intro other
    rw [hashWith_eq]
    rw [hashWith_eq]

theorem hash_transparent_last_epoch :
    (600 : UInt32) ≠ 0 ∧ ∃ clock, EpochClock.ofInterval 600 = .ok clock
      ∧ ((run [.get 7, .hash .mainnet 2000000 (Array.replicate 81 0), .clear, .get 3]).cache.hash
        clock 4294967295 (Array.replicate 81 0)).1.1 = .error (.inputTooLong 81 80)
      ∧ some 4294966800 ∈
        ((run [.get 7, .hash .mainnet 2000000 (Array.replicate 81 0), .clear, .get 3]).cache.hash
          clock 4294967295 (Array.replicate 81 0)).2.cachedKeys := by
  have hne : (600 : UInt32) ≠ 0 := by decide
  rcases hash_transparent (Keccak.permute closingRounds)
    [.get 7, .hash .mainnet 2000000 (Array.replicate 81 0), .clear, .get 3] hne
    4294967295 (Array.replicate 81 0) with ⟨clock, key, hclock, hkey, hhash, hkeys, _⟩
  have hstart : key = 4294966800 := by
    apply UInt32.toNat_inj.mp
    apply Int.ofNat_inj.mp
    exact ((hkey 4294966800).mp (by decide)).symm
  have hlong := Schedule.hashWith_of_gt (Schedule.build key) (Keccak.permute closingRounds)
    (Array.replicate 81 0) (by simp)
  rw [Array.size_replicate] at hlong
  refine ⟨hne, clock, hclock, ?_, ?_⟩
  . unfold hash
    rw [hhash]
    exact hlong
  . unfold hash
    rw [hkeys]
    rw [hstart]
    unfold keysAfter
    split
    . assumption
    . simp

end Cache

end EpochCipher
