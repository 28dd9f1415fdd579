import EpochCipher.State
import EpochCipher.Proofs.Vector

/-!
This module contains the inverses of the layers that act on the state without any table.
-/

namespace EpochCipher

namespace State

theorem foldl_xor_map_xor (words : List UInt64) (s init : UInt64) :
    (words.map (· ^^^ s)).foldl (· ^^^ ·) init
      =
    words.foldl (· ^^^ ·) init ^^^ if words.length % 2 = 0 then 0 else s := by
  induction words generalizing init with
  | nil => simp
  | cons w words ih =>
    have hstart : words.foldl (· ^^^ ·) (init ^^^ (w ^^^ s))
        = words.foldl (· ^^^ ·) (init ^^^ w) ^^^ s := by
      rw [← UInt64.xor_assoc]
      rw [UInt64.xor_comm _ s]
      rw [List.foldl_assoc]
      rw [UInt64.xor_comm s]
    rw [List.map_cons]
    rw [List.foldl_cons]
    rw [ih]
    rw [hstart]
    rw [List.foldl_cons]
    rw [UInt64.xor_assoc]
    rw [List.length_cons]
    congr 1
    by_cases h : words.length % 2 = 0
    . have hsucc : (words.length + 1) % 2 ≠ 0 := by omega
      simp [h, hsucc]
    . have hsucc : (words.length + 1) % 2 = 0 := by omega
      simp [h, hsucc]

@[simp]
theorem total_preMix (x : State) : x.preMix.total = x.total := by
  unfold total
  rw [← Vector.foldl_toList]
  rw [preMix]
  rw [Vector.toList_map]
  rw [foldl_xor_map_xor]
  -- The words are even in number.
  rw [Vector.length_toList]
  rw [Vector.foldl_toList]
  simp

@[simp]
theorem preMix_preMix (x : State) : x.preMix.preMix = x := by
  apply Vector.ext
  intro i hi
  simp

@[simp]
theorem maskedSwap_maskedSwap (mask : Vector UInt64 5) (x : State) :
    maskedSwap mask (maskedSwap mask x) = x := by
  apply Vector.ext
  intro i hi
  have heven : 2 * (i / 2) / 2 = i / 2 := by omega
  have hodd : (2 * (i / 2) + 1) / 2 = i / 2 := by omega
  have hpair : ∀ a b s : UInt64, a ^^^ s ^^^ (b ^^^ s) = a ^^^ b := by
    intro a b s
    rw [UInt64.xor_comm b s]
    rw [UInt64.xor_assoc]
    rw [← UInt64.xor_assoc s s b]
    simp
  simp only [getElem_maskedSwap, heven, hodd]
  rw [hpair]
  rw [UInt64.xor_assoc]
  simp

theorem mul_mod_mul_mod {m m' : Nat} (h : m * m' % 10 = 1) (i : Nat) (hi : i < 10) :
    m' * (m * i % 10) % 10 = i := by
  calc m' * (m * i % 10) % 10
    _ = m * m' % 10 * i % 10 := by
        rw [Nat.mul_mod_mod]
        rw [Nat.mod_mul_mod]
        rw [← Nat.mul_assoc]
        rw [Nat.mul_comm m']
    _ = i := by
        rw [h]
        omega

theorem getElem_wordShuffle (m m' : Nat) (h : m * m' % 10 = 1) (x : State) (j : Nat) (hj : j < 10) :
    (wordShuffle m x)[j] = x[m' * j % 10] := by
  have h' : m' * m % 10 = 1 := by
    rw [Nat.mul_comm]
    exact h
  rw [wordShuffle]
  -- The words below `k` have been moved before step `k`.
  refine finFoldl_induction
    (fun k (next : State) => m' * j % 10 < k → next[j] = x[m' * j % 10]) _ _ ?_ ?_ (by omega)
  . intro hlt
    omega
  . intro i next hnext hlt
    rw [Vector.getElem_set]
    split
    . next heq =>
      have hi : m' * j % 10 = i.val := by
        rw [← heq]
        exact mul_mod_mul_mod h i.val i.isLt
      simp [hi]
    . next hne =>
      apply hnext
      have : m' * j % 10 ≠ i.val := by
        intro heq
        rw [← heq] at hne
        exact hne (mul_mod_mul_mod h' j hj)
      omega

theorem wordShuffle_wordShuffle {m m' : Nat} (h : m * m' % 10 = 1) (x : State) :
    wordShuffle m' (wordShuffle m x) = x := by
  apply Vector.ext
  intro j hj
  have h' : m' * m % 10 = 1 := by
    rw [Nat.mul_comm]
    exact h
  rw [getElem_wordShuffle m' m h']
  rw [getElem_wordShuffle m m' h]
  simp only [mul_mod_mul_mod h j hj]

@[simp]
theorem unrotateEven_rotateEven (amounts : Vector UInt32 5) (x : State) :
    unrotateEven amounts (rotateEven amounts x) = x := by
  apply Vector.ext
  intro i hi
  by_cases h : i % 2 = 0
  . simp [h]
  . simp [h]

@[simp]
theorem injectKey_injectKey (key : UInt16) (x : State) : injectKey key (injectKey key x) = x := by
  apply Vector.ext
  intro i hi
  simp

end State

end EpochCipher
