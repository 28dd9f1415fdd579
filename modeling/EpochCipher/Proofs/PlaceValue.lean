import EpochCipher.Proofs.LittleEndian
import Mathlib.Algebra.BigOperators.Fin
import Mathlib.Algebra.BigOperators.Ring.Finset
import Mathlib.Tactic.Ring

/-!
This module contains what the conversions between bytes and larger numbers do to the number that a
whole buffer stands for: they keep it. The bytes are its digits in base 256, and the numbers that
groups of them stand for are its digits in a power of that base. Numbers may be written over any
buffer, as no byte of it is left.
-/

namespace EpochCipher

namespace LittleEndian

theorem value_ofFn (f : Fin m → UInt8) :
    value (List.ofFn f) = ∑ i, (f i).toNat * 256 ^ i.val := by
  induction m with
  | zero => simp
  | succ m ih =>
    have htail : ∑ i : Fin m, (f i.succ).toNat * 256 ^ i.succ.val
        = 256 * ∑ i : Fin m, (f i.succ).toNat * 256 ^ i.val := by
      rw [Finset.mul_sum]
      apply Finset.sum_congr rfl
      intro i _
      rw [Fin.val_succ]
      ring
    rw [List.ofFn_succ]
    rw [value_cons]
    rw [ih]
    rw [Fin.sum_univ_succ]
    rw [htail]
    simp

theorem value_append (as bs : List UInt8) :
    value (as ++ bs) = value as + 256 ^ as.length * value bs := by
  induction as with
  | nil => simp
  | cons a as ih =>
    simp only [List.cons_append, value_cons, List.length_cons, ih]
    ring

theorem value_eq_sum_take_drop (w : Nat) (bytes : List UInt8) (h : bytes.length = w * n) :
    value bytes = ∑ j : Fin n, value ((bytes.drop (w * j)).take w) * 256 ^ (w * j.val) := by
  induction n generalizing bytes with
  | zero =>
    rw [Nat.mul_zero] at h
    rw [List.eq_nil_of_length_eq_zero h]
    simp
  | succ n ih =>
    rw [Nat.mul_succ] at h
    -- The first group stands in front, and the others are those of the rest.
    have hrest := ih (bytes.drop w) (by rw [List.length_drop]; omega)
    have htail : ∑ j : Fin n, value ((bytes.drop (w * j.succ.val)).take w) * 256 ^ (w * j.succ.val)
        = 256 ^ w * value (bytes.drop w) := by
      rw [hrest]
      rw [Finset.mul_sum]
      apply Finset.sum_congr rfl
      intro j _
      rw [List.drop_drop]
      rw [Fin.val_succ]
      rw [Nat.mul_succ]
      rw [Nat.add_comm w]
      ring
    have hlength : (bytes.take w).length = w := by
      rw [List.length_take]
      omega
    rw [Fin.sum_univ_succ]
    rw [htail]
    rw [← List.take_append_drop w bytes]
    rw [value_append]
    rw [hlength]
    simp

theorem sum_bytes_eq_sum_group {toNat : α → Nat} {ofNat : Nat → α}
    (h : ∀ k < 256 ^ w, toNat (ofNat k) = k) (bytes : Vector UInt8 (w * n)) :
    ∑ i, (bytes.get i).toNat * 256 ^ i.val
      =
    ∑ j, toNat (((group w bytes).map ofNat).get j) * 2 ^ (8 * w * j.val) := by
  rw [← value_ofFn]
  rw [← toList_eq_ofFn]
  rw [value_eq_sum_take_drop w bytes.toList bytes.length_toList]
  apply Finset.sum_congr rfl
  intro j _
  rw [Vector.get_eq_getElem]
  rw [Vector.getElem_map]
  rw [h _ (getElem_group_lt w bytes j.val j.isLt)]
  rw [getElem_group]
  rw [Nat.mul_assoc]
  rw [Nat.pow_mul 2]

/-- The chunks before the chunk `i` hold the bytes of the values, all others those of `old`. -/
def StoredUpTo (w : Nat) (values : Vector Nat n) (old : Vector UInt8 (w * n)) (i : Nat)
    (buffer : Vector UInt8 (w * n)) : Prop :=
  ∀ (k : Nat) (h : k < w * n), buffer[k] = if k / w < i then (ungroup w values)[k] else old[k]

theorem storedUpTo_zero (w : Nat) (values : Vector Nat n) (old : Vector UInt8 (w * n)) :
    StoredUpTo w values old 0 old := by
  intro k h
  simp

theorem StoredUpTo.writeChunk {w : Nat} {values : Vector Nat n} {old buffer : Vector UInt8 (w * n)}
    (i : Fin n) (hbuffer : StoredUpTo w values old i.val buffer) :
    StoredUpTo w values old (i.val + 1) (writeChunk w i.val (values.get i) buffer) := by
  intro k h
  rw [getElem_writeChunk]
  rw [hbuffer k h]
  split
  . next heq =>
    have hchunk : (⟨k / w, Nat.div_lt_of_lt_mul h⟩ : Fin n) = i := Fin.ext heq
    rw [if_pos (by omega)]
    rw [getElem_ungroup]
    rw [hchunk]
  . next hne =>
    by_cases hlt : k / w < i.val
    . rw [if_pos hlt]
      rw [if_pos (by omega)]
    . rw [if_neg hlt]
      rw [if_neg (by omega)]

theorem storedUpTo_store (w : Nat) (values : Vector Nat n) (old : Vector UInt8 (w * n)) :
    StoredUpTo w values old n (store w values old) := by
  apply finFoldl_induction (StoredUpTo w values old)
  . exact storedUpTo_zero w values old
  . intro i buffer h
    exact h.writeChunk i

@[simp]
theorem store_eq_ungroup (w : Nat) (values : Vector Nat n) (old : Vector UInt8 (w * n)) :
    store w values old = ungroup w values := by
  apply Vector.ext
  intro k h
  rw [storedUpTo_store w values old k h]
  rw [if_pos (Nat.div_lt_of_lt_mul h)]

end LittleEndian

namespace State

theorem sum_bytes_eq_sum_unpack (block : Block) :
    ∑ i : Fin 80, (block.get i).toNat * 256 ^ i.val
      =
    ∑ j : Fin 10, ((unpack block).get j).toNat * 2 ^ (64 * j.val) := by
  have hwords : ∀ k < 256 ^ 8, (UInt64.ofNat k).toNat = k := fun k h => UInt64.toNat_ofNat_of_lt' h
  exact LittleEndian.sum_bytes_eq_sum_group (n := 10) hwords block

end State

namespace Keccak

theorem sum_bytes_eq_sum_unpack (buffer : Vector UInt8 100) :
    ∑ i : Fin 100, (buffer.get i).toNat * 256 ^ i.val
      =
    ∑ j : Fin 25, ((unpack buffer).get j).toNat * 2 ^ (32 * j.val) := by
  have hlanes : ∀ k < 256 ^ 4, (UInt32.ofNat k).toNat = k := fun k h => UInt32.toNat_ofNat_of_lt' h
  exact LittleEndian.sum_bytes_eq_sum_group (n := 25) hlanes buffer

@[simp]
theorem store_eq_pack (a : Lanes) (old : Vector UInt8 100) : store a old = pack a :=
  LittleEndian.store_eq_ungroup 4 (n := 25) (a.map UInt32.toNat) old

end Keccak

namespace LittleEndian

theorem conversions_keep_number :
    (∀ block : Block, State.pack (State.unpack block) = block
        ∧ ∑ i : Fin 80, (block.get i).toNat * 256 ^ i.val
          = ∑ j : Fin 10, ((State.unpack block).get j).toNat * 2 ^ (64 * j.val))
      ∧ (∀ (x : State) (old : Block), State.unpack (State.pack x) = x
        ∧ store 8 (n := 10) (x.map UInt64.toNat) old = State.pack x)
      ∧ (∀ buffer old : Vector UInt8 100, Keccak.store (Keccak.unpack buffer) old = buffer
        ∧ ∑ i : Fin 100, (buffer.get i).toNat * 256 ^ i.val
          = ∑ j : Fin 25, ((Keccak.unpack buffer).get j).toNat * 2 ^ (32 * j.val))
      ∧ ∀ (a : Keccak.Lanes) (old : Vector UInt8 100),
        Keccak.unpack (Keccak.store a old) = a ∧ Keccak.store a old = Keccak.pack a := by
  refine ⟨?_, ?_, ?_, ?_⟩
  . intro block
    exact ⟨State.pack_unpack block, State.sum_bytes_eq_sum_unpack block⟩
  . intro x old
    exact ⟨State.unpack_pack x, store_eq_ungroup 8 (n := 10) _ old⟩
  . intro buffer old
    rw [Keccak.store_eq_pack]
    exact ⟨Keccak.pack_unpack buffer, Keccak.sum_bytes_eq_sum_unpack buffer⟩
  . intro a old
    rw [Keccak.store_eq_pack]
    exact ⟨Keccak.unpack_pack a, rfl⟩

end LittleEndian

end EpochCipher
