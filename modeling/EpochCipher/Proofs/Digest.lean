import EpochCipher.Digest
import EpochCipher.Proofs.Cipher
import EpochCipher.Proofs.Keccak

/-!
This module contains the proof that the hash loses nothing until its buffer is cut to a digest: the
length of the input can be told from the last byte of the padding that is not zero, and neither the
cipher nor the closing permutation maps two buffers to the same one.
-/

namespace EpochCipher

theorem getElem_padded_of_lt (data : Array UInt8) (i : Nat) (hi : i < 100) (h : i < data.size) :
    (padded data)[i] = data[i] := by
  simp [padded, h]

theorem getElem_padded_size (data : Array UInt8) (h : data.size < 100) :
    (padded data)[data.size] = 1 := by
  simp [padded]

theorem getElem_padded_of_gt (data : Array UInt8) (i : Nat) (hi : i < 100) (h : data.size < i) :
    (padded data)[i] = 0 := by
  have hle : data.size ≤ i := by omega
  have hne : i ≠ data.size := by omega
  simp [padded, hle, hne]

theorem size_le_of_padded_eq {a b : Array UInt8} (hb : b.size < 100) (h : padded a = padded b) :
    b.size ≤ a.size := by
  apply Nat.le_of_not_lt
  intro hlt
  -- The marker of the longer input stands where the padding of the shorter one is zero.
  have hzero := getElem_padded_of_gt a b.size hb hlt
  have hone := getElem_padded_size b hb
  rw [h] at hzero
  rw [hzero] at hone
  exact absurd hone (by decide)

theorem eq_of_padded_eq {a b : Array UInt8} (ha : a.size < 100) (hb : b.size < 100)
    (h : padded a = padded b) : a = b := by
  apply Array.ext
  . apply Nat.le_antisymm
    . exact size_le_of_padded_eq ha h.symm
    . exact size_le_of_padded_eq hb h
  . intro i hia hib
    rw [← getElem_padded_of_lt a i (by omega) hia]
    rw [← getElem_padded_of_lt b i (by omega) hib]
    simp only [h]

namespace Keccak

theorem onBytes_injective {f : Lanes → Lanes} (h : Function.Injective f) :
    Function.Injective (onBytes f) := by
  intro a b hab
  have hlanes : f (unpack a) = f (unpack b) := by
    rw [← unpack_pack (f (unpack a))]
    rw [← unpack_pack (f (unpack b))]
    exact congrArg unpack hab
  rw [← pack_unpack a]
  rw [h hlanes]
  rw [pack_unpack]

end Keccak

namespace Schedule

def hashBlockOf (data : Array UInt8) : Block :=
  Vector.ofFn fun i => (padded data).get (i.castAdd 20)

theorem getElem_hashBuffer_of_lt (s : Schedule) (data : Array UInt8) (i : Nat) (h : i < 80) :
    (s.hashBuffer data)[i] = (s.encrypt (hashBlockOf data))[i] := by
  simp [hashBuffer, hashBlockOf, Vector.get_eq_getElem, h]

theorem getElem_hashBuffer_of_ge (s : Schedule) (data : Array UInt8) (i : Nat) (hi : i < 100)
    (h : 80 ≤ i) : (s.hashBuffer data)[i] = (padded data)[i] := by
  have hnot : ¬i < 80 := by omega
  simp [hashBuffer, hnot]

theorem padded_eq_of_hashBuffer_eq {s : Schedule} (h : s.substitution.isBijective = true)
    {a b : Array UInt8} (hab : s.hashBuffer a = s.hashBuffer b) : padded a = padded b := by
  have hblock : hashBlockOf a = hashBlockOf b := by
    apply encrypt_injective h
    apply Vector.ext
    intro i hi
    rw [← getElem_hashBuffer_of_lt]
    rw [← getElem_hashBuffer_of_lt]
    simp only [hab]
  apply Vector.ext
  intro i hi
  by_cases hlt : i < 80
  . have := congrArg (fun block : Block => block[i]) hblock
    simpa [hashBlockOf, Vector.get_eq_getElem] using this
  . rw [← getElem_hashBuffer_of_ge s a i hi (by omega)]
    rw [← getElem_hashBuffer_of_ge s b i hi (by omega)]
    simp only [hab]

theorem hashBuffer_ne {s : Schedule} (h : s.substitution.isBijective = true) {a b : Array UInt8}
    (ha : a.size ≤ 80) (hb : b.size ≤ 80) (hne : a ≠ b) : s.hashBuffer a ≠ s.hashBuffer b := by
  intro hab
  apply hne
  apply eq_of_padded_eq
  . exact Nat.lt_of_le_of_lt ha blockBytes_lt_bufferBytes
  . exact Nat.lt_of_le_of_lt hb blockBytes_lt_bufferBytes
  . exact padded_eq_of_hashBuffer_eq h hab

section

variable (s : Schedule) (permute : Keccak.Lanes → Keccak.Lanes) (data : Array UInt8)

theorem hashWith_of_le (h : data.size ≤ 80) :
    s.hashWith permute data = .ok (s.digestWith permute data) := by
  have hnot : ¬data.size > blockBytes := Nat.not_lt.mpr h
  unfold hashWith
  rw [if_neg hnot]

theorem hashWith_of_gt (h : 80 < data.size) :
    s.hashWith permute data = .error (.inputTooLong data.size 80) := by
  have hgt : data.size > blockBytes := h
  unfold hashWith
  rw [if_pos hgt]

@[simp]
theorem getElem_digestWith (i : Nat) (h : i < 32) :
    (s.digestWith permute data)[i] = (Keccak.onBytes permute (s.hashBuffer data))[i] := by
  simp [digestWith]

end

/--
Different inputs that fit into a block differ in their encrypted buffers and, closed by Keccak or by
any other injective function, in the buffers that digests are cut from. Longer inputs are refused.
-/
theorem hash_injective_before_truncation (s : Schedule) :
    (s.substitution.isBijective = true →
      ∀ a b : Array UInt8, a.size ≤ 80 → b.size ≤ 80 → a ≠ b →
        s.hashBuffer a ≠ s.hashBuffer b
          ∧ (∀ f : Keccak.Lanes → Keccak.Lanes, Function.Injective f →
            Keccak.onBytes f (s.hashBuffer a) ≠ Keccak.onBytes f (s.hashBuffer b))
          ∧ Keccak.close (s.hashBuffer a) ≠ Keccak.close (s.hashBuffer b))
      ∧ (∀ data : Array UInt8, data.size ≤ 80 → ∃ digest, s.hash data = .ok digest
        ∧ ∀ (i : Nat) (h : i < 32), digest[i] = (Keccak.close (s.hashBuffer data))[i])
      ∧ ∀ data : Array UInt8, 80 < data.size →
        s.hash data = .error (.inputTooLong data.size 80) := by
  refine ⟨?_, ?_, hashWith_of_gt s _⟩
  . intro h a b ha hb hne
    have hbuffer := hashBuffer_ne h ha hb hne
    have hclosed : ∀ f : Keccak.Lanes → Keccak.Lanes, Function.Injective f →
        Keccak.onBytes f (s.hashBuffer a) ≠ Keccak.onBytes f (s.hashBuffer b) := by
      intro f hf heq
      exact hbuffer (Keccak.onBytes_injective hf heq)
    exact ⟨hbuffer, hclosed, hclosed _ (Keccak.permute_injective closingRounds)⟩
  . intro data hsize
    exact ⟨s.digest data, hashWith_of_le s _ data hsize, getElem_digestWith s _ data⟩

theorem hash_injective_before_truncation_build_one :
    (build 1).hashBuffer (Array.replicate 79 7)
        ≠ (build 1).hashBuffer ((Array.replicate 79 7).push 1)
      ∧ Keccak.onBytes (Keccak.permute closingRounds) ((build 1).hashBuffer (Array.replicate 79 7))
        ≠ Keccak.onBytes (Keccak.permute closingRounds)
          ((build 1).hashBuffer ((Array.replicate 79 7).push 1))
      ∧ (build 1).hash (Array.replicate 81 0) = .error (.inputTooLong 81 80) := by
  have hall := hash_injective_before_truncation (build 1)
  -- The last byte of the longer input looks like the padding of the shorter one.
  have hne : Array.replicate 79 (7 : UInt8) ≠ (Array.replicate 79 7).push 1 := by
    intro h
    simpa using congrArg Array.size h
  have hpair := hall.left (isBijective_build 1) (Array.replicate 79 7)
    ((Array.replicate 79 7).push 1) (by simp) (by simp) hne
  have hlong := hall.right.right (Array.replicate 81 0) (by simp)
  rw [Array.size_replicate] at hlong
  exact ⟨hpair.left, hpair.right.left _ (Keccak.permute_injective closingRounds), hlong⟩

end Schedule

end EpochCipher
