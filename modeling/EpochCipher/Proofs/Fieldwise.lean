import EpochCipher.Proofs.Substitution
import Mathlib.Algebra.BigOperators.Fin

/-!
This module contains the substitution with entries that fit into their fields. Then no field touches
another one: every field of the result is the entry for the same field, and two substitutions in a
row are one with composed tables.
-/

namespace EpochCipher

namespace Substitution

structure InRange (t : Substitution) : Prop where
  small_lt : ∀ (i : Fin 40) (v : Fin 64), ((t.small.get i).get v).toNat < 64
  large_lt : ∀ (i : Fin 10) (v : Fin 1024), ((t.large.get i).get v).toNat < 1024

/-- The tables of `u`, entry by entry, applied to the entries of `t`. -/
def andThen (t u : Substitution) (h : t.InRange) : Substitution where
  small := Vector.ofFn fun i => Vector.ofFn fun v =>
    (u.small.get i).get ⟨((t.small.get i).get v).toNat, h.small_lt i v⟩
  large := Vector.ofFn fun i => Vector.ofFn fun v =>
    (u.large.get i).get ⟨((t.large.get i).get v).toNat, h.large_lt i v⟩

def smallAt (t : Substitution) (w : Fin 10) (p : Fin 4) (word : UInt64) : Nat :=
  ((t.small.get ⟨4 * w.val + p.val, smallIndex_lt w p⟩).get
    (Word.field word (16 * p.val) smallWidth).toFin).toNat

def largeAt (t : Substitution) (w : Fin 10) (p : Fin 4) (word : UInt64) : Nat :=
  ((t.large.get w).get (Word.field word (16 * p.val + smallWidth) largeWidth).toFin).toNat

theorem InRange.entry_lt {t : Substitution} (h : t.InRange) (w : Fin 10) (f : Fin 8) (v : Nat)
    (hv : v < 2 ^ fieldWidth f.val) : t.entry w f v < 2 ^ fieldWidth f.val := by
  by_cases hf : f.val % 2 = 0
  . rw [fieldWidth_of_even hf] at hv ⊢
    rw [entry_of_even _ _ _ _ hf hv]
    exact h.small_lt ⟨4 * w.val + f.val / 2, by omega⟩ ⟨v, hv⟩
  . have hodd : f.val % 2 = 1 := by omega
    rw [fieldWidth_of_odd hodd] at hv ⊢
    rw [entry_of_odd _ _ _ _ hodd hv]
    exact h.large_lt w ⟨v, hv⟩

theorem InRange.fieldOf_applyWord {t : Substitution} (h : t.InRange) (w : Fin 10) (word : UInt64)
    (f : Fin 8) : fieldOf (t.applyWord w word) f.val = t.entry w f (fieldOf word f.val) := by
  apply fieldOf_applyWord_of_lt
  intro g
  apply h.entry_lt
  apply fieldOf_lt

theorem entry_andThen {t : Substitution} (h : t.InRange) (u : Substitution) (w : Fin 10) (f : Fin 8)
    (v : Nat) (hv : v < 2 ^ fieldWidth f.val) :
    (t.andThen u h).entry w f v = u.entry w f (t.entry w f v) := by
  have hlt := h.entry_lt w f v hv
  by_cases hf : f.val % 2 = 0
  . rw [fieldWidth_of_even hf] at hv hlt
    rw [entry_of_even _ _ _ _ hf hv]
    rw [entry_of_even _ _ _ _ hf hlt]
    simp only [entry_of_even t _ _ _ hf hv]
    simp [andThen, Vector.get_eq_getElem]
  . have hodd : f.val % 2 = 1 := by omega
    rw [fieldWidth_of_odd hodd] at hv hlt
    rw [entry_of_odd _ _ _ _ hodd hv]
    rw [entry_of_odd _ _ _ _ hodd hlt]
    simp only [entry_of_odd t _ _ _ hodd hv]
    simp [andThen, Vector.get_eq_getElem]

theorem applyWord_eq_of_entry_eq {t u : Substitution} {w : Fin 10} {a b : UInt64}
    (h : ∀ f : Fin 8, t.entry w f (fieldOf a f.val) = u.entry w f (fieldOf b f.val)) :
    t.applyWord w a = u.applyWord w b := by
  apply UInt64.toBitVec_inj.mp
  apply BitVec.eq_of_getLsbD_eq
  intro j hj
  rw [Bool.eq_iff_iff]
  rw [getLsbD_applyWord _ _ _ _ hj]
  rw [getLsbD_applyWord _ _ _ _ hj]
  unfold SetsBit
  simp only [h]

theorem apply_apply {t : Substitution} (h : t.InRange) (u : Substitution) (x : State) :
    u.apply (t.apply x) = (t.andThen u h).apply x := by
  apply Vector.ext
  intro w hw
  simp only [getElem_apply]
  apply applyWord_eq_of_entry_eq
  intro f
  rw [h.fieldOf_applyWord]
  rw [entry_andThen h]
  apply fieldOf_lt

theorem entry_identity (w : Fin 10) (f : Fin 8) (v : Nat) (hv : v < 2 ^ fieldWidth f.val) :
    identity.entry w f v = v := by
  by_cases hf : f.val % 2 = 0
  . rw [fieldWidth_of_even hf] at hv
    rw [entry_of_even _ _ _ _ hf hv]
    simp [identity, smallIdentity, Vector.get_eq_getElem]
    omega
  . have hodd : f.val % 2 = 1 := by omega
    rw [fieldWidth_of_odd hodd] at hv
    rw [entry_of_odd _ _ _ _ hodd hv]
    simp [identity, largeIdentity]
    omega

@[simp]
theorem identity_apply (x : State) : identity.apply x = x := by
  apply Vector.ext
  intro w hw
  rw [getElem_apply]
  apply applyWord_eq_of_entry_eq_fieldOf
  intro f
  exact entry_identity ⟨w, hw⟩ f _ (fieldOf_lt x[w] f.val)

theorem toNat_field (word : UInt64) (pos width : Nat) :
    (Word.field word pos width).toNat = word.toNat / 2 ^ pos % 2 ^ width := by
  unfold Word.field
  rw [BitVec.extractLsb'_toNat]
  rw [Nat.shiftRight_eq_div_pow]
  rw [UInt64.toNat_toBitVec]

theorem toNat_eq_sum_fields (word : UInt64) :
    word.toNat = ∑ p : Fin 4, ((Word.field word (16 * p.val) smallWidth).toNat <<< (16 * p.val)
      + (Word.field word (16 * p.val + smallWidth) largeWidth).toNat
        <<< (16 * p.val + smallWidth)) := by
  have hlt : word.toNat < 2 ^ 64 := word.toNat_lt
  simp only [toNat_field, Nat.shiftLeft_eq, Fin.sum_univ_four, smallWidth, largeWidth]
  simp
  omega

theorem InRange.field_small {t : Substitution} (h : t.InRange) (w : Fin 10) (p : Fin 4)
    (word : UInt64) :
    (Word.field (t.applyWord w word) (16 * p.val) smallWidth).toNat = t.smallAt w p word := by
  have hfield := h.fieldOf_applyWord w word ⟨2 * p.val, by omega⟩
  rw [entry_two_mul] at hfield
  rw [fieldOf_two_mul] at hfield
  exact hfield

theorem InRange.field_large {t : Substitution} (h : t.InRange) (w : Fin 10) (p : Fin 4)
    (word : UInt64) :
    (Word.field (t.applyWord w word) (16 * p.val + smallWidth) largeWidth).toNat
      =
    t.largeAt w p word := by
  have hfield := h.fieldOf_applyWord w word ⟨2 * p.val + 1, by omega⟩
  rw [entry_two_mul_add_one] at hfield
  rw [fieldOf_two_mul_add_one] at hfield
  exact hfield

@[simp]
theorem get_apply (t : Substitution) (x : State) (w : Fin 10) :
    (t.apply x).get w = t.applyWord w (x.get w) :=
  getElem_apply t x w.val w.isLt

/--
With entries that fit, a substitution puts the entry for every field into the place of the field.
A word of the result is the sum of its eight entries, each moved to its place: nothing else is set,
and nothing is lost. A second substitution composes the tables, and identical tables change nothing.
-/
theorem apply_fieldwise (t : Substitution) (h : t.InRange) (x : State) :
    (∀ (w : Fin 10) (p : Fin 4),
        (Word.field ((t.apply x).get w) (16 * p.val) smallWidth).toNat = t.smallAt w p (x.get w)
          ∧ (Word.field ((t.apply x).get w) (16 * p.val + smallWidth) largeWidth).toNat
            = t.largeAt w p (x.get w))
      ∧ (∀ w : Fin 10, ((t.apply x).get w).toNat
        = ∑ p : Fin 4, (t.smallAt w p (x.get w) <<< (16 * p.val)
          + t.largeAt w p (x.get w) <<< (16 * p.val + smallWidth)))
      ∧ (∀ u : Substitution, u.apply (t.apply x) = (t.andThen u h).apply x)
      ∧ identity.apply x = x := by
  refine ⟨?_, ?_, ?_, identity_apply x⟩
  . intro w p
    rw [get_apply]
    exact ⟨h.field_small w p (x.get w), h.field_large w p (x.get w)⟩
  . intro w
    rw [get_apply]
    rw [toNat_eq_sum_fields]
    simp only [h.field_small, h.field_large]
  . intro u
    exact apply_apply h u x

theorem apply_fieldwise_halving :
    ∃ (t : Substitution) (h : t.InRange) (x : State),
      t = { small := Vector.replicate 40 (Vector.ofFn fun v => UInt8.ofNat (v.val / 2))
            large := Vector.replicate 10 (Vector.ofFn fun v => UInt16.ofNat (v.val / 2)) }
        ∧ x = Vector.replicate 10 0xfedcba9876543210
        ∧ (∀ (w : Fin 10) (p : Fin 4),
          (Word.field ((t.apply x).get w) (16 * p.val) smallWidth).toNat = t.smallAt w p (x.get w)
            ∧ (Word.field ((t.apply x).get w) (16 * p.val + smallWidth) largeWidth).toNat
              = t.largeAt w p (x.get w))
        ∧ (∀ w : Fin 10, ((t.apply x).get w).toNat
          = ∑ p : Fin 4, (t.smallAt w p (x.get w) <<< (16 * p.val)
            + t.largeAt w p (x.get w) <<< (16 * p.val + smallWidth)))
        ∧ (∀ u : Substitution, u.apply (t.apply x) = (t.andThen u h).apply x)
        ∧ identity.apply x = x := by
  have h : ({ small := Vector.replicate 40 (Vector.ofFn fun v => UInt8.ofNat (v.val / 2))
              large := Vector.replicate 10 (Vector.ofFn fun v => UInt16.ofNat (v.val / 2)) }
      : Substitution).InRange := by
    constructor
    . intro i v
      have hv : v.val < 64 := v.isLt
      simp [Vector.get_eq_getElem]
      omega
    . intro i v
      have hv : v.val < 1024 := v.isLt
      simp [Vector.get_eq_getElem]
      omega
  exact ⟨_, h, _, rfl, rfl, apply_fieldwise _ h _⟩

end Substitution

end EpochCipher
