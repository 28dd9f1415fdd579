import EpochCipher.Substitution
import EpochCipher.Proofs.Table
import EpochCipher.Proofs.Vector
import Mathlib.Data.List.GetD

/-!
This module contains the view of a word as eight fields, small and large ones in turns, in which the
substitution looks each of them up in a table of its own.
-/

namespace EpochCipher

namespace Substitution

def fieldPos (f : Nat) : Nat :=
  16 * (f / 2) + 6 * (f % 2)

def fieldWidth (f : Nat) : Nat :=
  6 + 4 * (f % 2)

def fieldOf (word : UInt64) (f : Nat) : Nat :=
  (Word.field word (fieldPos f) (fieldWidth f)).toNat

def fieldTable (t : Substitution) (w : Fin 10) (f : Fin 8) : List Nat :=
  if f.val % 2 = 0 then
    (t.smallEntries ⟨4 * w.val + f.val / 2, by omega⟩).toList
  else
    (t.largeEntries w).toList

/-- The entry that takes the place of the value `v` in field `f` of word `w`. -/
def entry (t : Substitution) (w : Fin 10) (f : Fin 8) (v : Nat) : Nat :=
  (t.fieldTable w f).getD v 0

/-- Whether the entry for field `f` of a word sets bit `j` when it is written to the word. -/
def SetsBit (t : Substitution) (w : Fin 10) (word : UInt64) (j : Nat) (f : Fin 8) : Prop :=
  fieldPos f.val ≤ j
    ∧ (t.entry w f (fieldOf word f.val)).testBit (j - fieldPos f.val) = true

theorem testBit_eq_false {v width i : Nat} (hv : v < 2 ^ width) (hi : width ≤ i) :
    v.testBit i = false := by
  apply Nat.testBit_lt_two_pow
  exact Nat.lt_of_lt_of_le hv (Nat.pow_le_pow_right (by decide) hi)

theorem fieldOf_lt (word : UInt64) (f : Nat) : fieldOf word f < 2 ^ fieldWidth f := by
  apply BitVec.isLt

theorem testBit_fieldOf (word : UInt64) (f i : Nat) :
    (fieldOf word f).testBit i
      =
    (decide (i < fieldWidth f) && word.toBitVec.getLsbD (fieldPos f + i)) := by
  rw [fieldOf]
  rw [BitVec.testBit_toNat]
  rw [Word.getLsbD_field]

theorem exists_fieldPos (j : Nat) (hj : j < 64) :
    ∃ f : Fin 8, ∃ i, i < fieldWidth f.val ∧ j = fieldPos f.val + i := by
  by_cases h : j % 16 < 6
  . refine ⟨⟨2 * (j / 16), by omega⟩, j % 16, ?_, ?_⟩
    . unfold fieldWidth
      omega
    . unfold fieldPos
      dsimp
      omega
  . refine ⟨⟨2 * (j / 16) + 1, by omega⟩, j % 16 - 6, ?_, ?_⟩
    . unfold fieldWidth
      dsimp
      omega
    . unfold fieldPos
      dsimp
      omega

theorem eq_of_fieldOf_eq {v w : UInt64} (h : ∀ f : Fin 8, fieldOf v f.val = fieldOf w f.val) :
    v = w := by
  apply UInt64.toBitVec_inj.mp
  apply BitVec.eq_of_getLsbD_eq
  intro j hj
  rcases exists_fieldPos j hj with ⟨f, i, hi, rfl⟩
  have hbit := congrArg (fun n => n.testBit i) (h f)
  simp only [testBit_fieldOf, hi, decide_true, Bool.true_and] at hbit
  exact hbit

theorem entry_of_even (t : Substitution) (w : Fin 10) (f : Fin 8) (v : Nat)
    (hf : f.val % 2 = 0) (hv : v < 64) :
    t.entry w f v
      =
    (t.small.get ⟨4 * w.val + f.val / 2, smallIndex_lt w ⟨f.val / 2, by omega⟩⟩)[v].toNat := by
  simp [entry, fieldTable, smallEntries, Vector.get_eq_getElem, hf, hv]

theorem entry_of_odd (t : Substitution) (w : Fin 10) (f : Fin 8) (v : Nat)
    (hf : f.val % 2 = 1) (hv : v < 1024) :
    t.entry w f v = (t.large[w.val][v]).toNat := by
  simp [entry, fieldTable, largeEntries, Vector.get_eq_getElem, hf, hv]

theorem fieldWidth_of_even {f : Nat} (hf : f % 2 = 0) : fieldWidth f = 6 := by
  unfold fieldWidth
  omega

theorem fieldWidth_of_odd {f : Nat} (hf : f % 2 = 1) : fieldWidth f = 10 := by
  unfold fieldWidth
  omega

theorem fieldOf_two_mul (word : UInt64) (p : Nat) :
    fieldOf word (2 * p) = (Word.field word (16 * p) smallWidth).toNat := by
  unfold fieldOf
  rw [show fieldPos (2 * p) = 16 * p by unfold fieldPos; omega]
  rw [fieldWidth_of_even (by omega)]

theorem fieldOf_two_mul_add_one (word : UInt64) (p : Nat) :
    fieldOf word (2 * p + 1) = (Word.field word (16 * p + smallWidth) largeWidth).toNat := by
  unfold fieldOf
  rw [show fieldPos (2 * p + 1) = 16 * p + smallWidth by unfold fieldPos smallWidth; omega]
  rw [fieldWidth_of_odd (by omega)]

theorem entry_two_mul (t : Substitution) (w : Fin 10) (p : Fin 4) (word : UInt64) :
    t.entry w ⟨2 * p.val, by omega⟩ (fieldOf word (2 * p.val))
      =
    (t.small.get ⟨4 * w.val + p.val, smallIndex_lt w p⟩)[
      (Word.field word (16 * p.val) smallWidth).toFin].toNat := by
  have hlt : (Word.field word (16 * p.val) smallWidth).toNat < 64 := BitVec.isLt _
  rw [fieldOf_two_mul]
  rw [entry_of_even _ _ _ _ (by dsimp; omega) hlt]
  simp

theorem entry_two_mul_add_one (t : Substitution) (w : Fin 10) (p : Fin 4) (word : UInt64) :
    t.entry w ⟨2 * p.val + 1, by omega⟩ (fieldOf word (2 * p.val + 1))
      =
    (t.large.get w)[(Word.field word (16 * p.val + smallWidth) largeWidth).toFin].toNat := by
  have hlt : (Word.field word (16 * p.val + smallWidth) largeWidth).toNat < 1024 :=
    BitVec.isLt _
  rw [fieldOf_two_mul_add_one]
  rw [entry_of_odd _ _ _ _ (by dsimp; omega) hlt]
  simp [Vector.get_eq_getElem]

theorem getLsbD_shiftLeft_ofNat (a : UInt64) (k j : Nat) (hk : k < 64) (hj : j < 64) :
    (a <<< UInt64.ofNat k).toBitVec.getLsbD j = true
      ↔
    k ≤ j ∧ a.toNat.testBit (j - k) = true := by
  have hmod : k % 64 = k := Nat.mod_eq_of_lt hk
  rw [← UInt64.toNat_toBitVec a]
  rw [BitVec.testBit_toNat]
  simp [hj, hmod, -BitVec.getLsbD_eq_getElem]

theorem exists_field_of_succ (p : Fin 4) (P : Fin 8 → Prop) :
    (∃ f : Fin 8, f.val / 2 < p.val + 1 ∧ P f)
      ↔
    ((∃ f : Fin 8, f.val / 2 < p.val ∧ P f) ∨ P ⟨2 * p.val, by omega⟩)
      ∨ P ⟨2 * p.val + 1, by omega⟩ := by
  constructor
  . intro ⟨f, hlt, hf⟩
    by_cases h : f.val / 2 < p.val
    . exact Or.inl (Or.inl ⟨f, h, hf⟩)
    . by_cases heven : f.val % 2 = 0
      . have heq : f = ⟨2 * p.val, by omega⟩ := Fin.ext (by dsimp; omega)
        rw [heq] at hf
        exact Or.inl (Or.inr hf)
      . have heq : f = ⟨2 * p.val + 1, by omega⟩ := Fin.ext (by dsimp; omega)
        rw [heq] at hf
        exact Or.inr hf
  . intro h
    rcases h with (⟨f, hlt, hf⟩ | hf) | hf
    . exact ⟨f, by omega, hf⟩
    . exact ⟨_, by dsimp; omega, hf⟩
    . exact ⟨_, by dsimp; omega, hf⟩

theorem getLsbD_applyWord (t : Substitution) (w : Fin 10) (word : UInt64) (j : Nat) (hj : j < 64) :
    (t.applyWord w word).toBitVec.getLsbD j = true
      ↔
    ∃ f, t.SetsBit w word j f := by
  have hpairs : fieldPairs = 4 := rfl
  rw [applyWord]
  -- The pairs below `k` have been written to the word so far.
  apply Iff.trans (finFoldl_induction
    (fun k (next : UInt64) =>
      next.toBitVec.getLsbD j = true ↔ ∃ f, f.val / 2 < k ∧ t.SetsBit w word j f) _ _ ?_ ?_)
  . constructor
    . intro ⟨f, _, hf⟩
      exact ⟨f, hf⟩
    . intro ⟨f, hf⟩
      exact ⟨f, by omega, hf⟩
  . simp
  . intro p next ih
    have hsmallPos : fieldPos (2 * p.val) = 16 * p.val := by
      unfold fieldPos
      omega
    have hlargePos : fieldPos (2 * p.val + 1) = 16 * p.val + smallWidth := by
      unfold fieldPos
      unfold smallWidth
      omega
    have hlt : 16 * p.val + smallWidth < 64 := by
      unfold smallWidth
      omega
    dsimp only
    simp only [UInt64.toBitVec_or, BitVec.getLsbD_or, Bool.or_eq_true]
    rw [ih]
    rw [getLsbD_shiftLeft_ofNat _ _ _ (by omega) hj]
    rw [getLsbD_shiftLeft_ofNat _ _ _ hlt hj]
    rw [UInt8.toNat_toUInt64]
    rw [UInt16.toNat_toUInt64]
    rw [← entry_two_mul]
    rw [← entry_two_mul_add_one]
    rw [exists_field_of_succ]
    unfold SetsBit
    rw [← hlargePos]
    rw [← hsmallPos]

theorem fieldPos_add_fieldWidth_le {f g : Nat} (h : f < g) :
    fieldPos f + fieldWidth f ≤ fieldPos g := by
  unfold fieldPos
  unfold fieldWidth
  omega

theorem fieldPos_add_fieldWidth_le_64 (f : Fin 8) : fieldPos f.val + fieldWidth f.val ≤ 64 := by
  unfold fieldPos
  unfold fieldWidth
  omega

@[simp]
theorem setsBit_fieldPos_add (t : Substitution) (w : Fin 10) (word : UInt64) (f : Fin 8) (i : Nat) :
    t.SetsBit w word (fieldPos f.val + i) f
      ↔
    (t.entry w f (fieldOf word f.val)).testBit i = true := by
  unfold SetsBit
  rw [Nat.add_sub_cancel_left]
  simp

theorem fieldOf_applyWord (t : Substitution) (w : Fin 10) (word : UInt64) (f : Fin 8)
    (h : ∀ g < f, t.entry w g (fieldOf word g.val) < 2 ^ fieldWidth g.val) :
    fieldOf (t.applyWord w word) f.val
      =
    t.entry w f (fieldOf word f.val) % 2 ^ fieldWidth f.val := by
  apply Nat.eq_of_testBit_eq
  intro i
  rw [testBit_fieldOf]
  rw [Nat.testBit_mod_two_pow]
  by_cases hi : i < fieldWidth f.val
  . have hj : fieldPos f.val + i < 64 := by
      have := fieldPos_add_fieldWidth_le_64 f
      omega
    simp only [hi, decide_true, Bool.true_and]
    rw [Bool.eq_iff_iff]
    rw [getLsbD_applyWord _ _ _ _ hj]
    rw [← setsBit_fieldPos_add]
    constructor
    . intro ⟨g, hg⟩
      rcases Nat.lt_trichotomy g.val f.val with hlt | heq | hgt
      . have hpos := fieldPos_add_fieldWidth_le hlt
        have hbit := hg.right
        rw [testBit_eq_false (h g hlt) (by omega)] at hbit
        contradiction
      . rw [Fin.ext heq] at hg
        exact hg
      . have hpos := fieldPos_add_fieldWidth_le hgt
        have hle := hg.left
        omega
    . intro hf
      exact ⟨f, hf⟩
  . simp [hi]

theorem fieldOf_applyWord_of_lt {t : Substitution} {w : Fin 10} {word : UInt64}
    (h : ∀ g : Fin 8, t.entry w g (fieldOf word g.val) < 2 ^ fieldWidth g.val) (f : Fin 8) :
    fieldOf (t.applyWord w word) f.val = t.entry w f (fieldOf word f.val) := by
  rw [fieldOf_applyWord]
  . apply Nat.mod_eq_of_lt
    apply h
  . intro g _
    apply h

theorem applyWord_eq_of_entry_eq_fieldOf {t : Substitution} {w : Fin 10} {word result : UInt64}
    (h : ∀ f : Fin 8, t.entry w f (fieldOf word f.val) = fieldOf result f.val) :
    t.applyWord w word = result := by
  apply eq_of_fieldOf_eq
  intro f
  rw [fieldOf_applyWord_of_lt]
  . exact h f
  . intro g
    rw [h]
    apply fieldOf_lt

@[simp]
theorem length_fieldTable (t : Substitution) (w : Fin 10) (f : Fin 8) :
    (t.fieldTable w f).length = 2 ^ fieldWidth f.val := by
  unfold fieldTable
  unfold fieldWidth
  split
  . next h =>
    rw [h]
    simp
  . next h =>
    rw [show f.val % 2 = 1 by omega]
    simp

theorem isBijective_iff (t : Substitution) :
    t.isBijective = true
      ↔
    (∀ i, Table.isBijection (t.smallEntries i).toList = true)
      ∧ ∀ i, Table.isBijection (t.largeEntries i).toList = true := by
  unfold isBijective
  simp

theorem isBijection_fieldTable {t : Substitution} (h : t.isBijective = true) (w : Fin 10)
    (f : Fin 8) : Table.isBijection (t.fieldTable w f) = true := by
  rw [isBijective_iff] at h
  unfold fieldTable
  split
  . apply h.left
  . apply h.right

theorem entry_mem_fieldTable (t : Substitution) (w : Fin 10) (f : Fin 8) (v : Nat)
    (hv : v < 2 ^ fieldWidth f.val) : t.entry w f v ∈ t.fieldTable w f := by
  have hlength := length_fieldTable t w f
  unfold entry
  rw [List.getD_eq_getElem _ _ (by omega)]
  apply List.getElem_mem

theorem entry_lt {t : Substitution} {w : Fin 10} {f : Fin 8}
    (h : Table.isBijection (t.fieldTable w f) = true) (v : Nat) (hv : v < 2 ^ fieldWidth f.val) :
    t.entry w f v < 2 ^ fieldWidth f.val := by
  rw [Table.isBijection_iff] at h
  rw [length_fieldTable] at h
  rw [← List.mem_range]
  rw [← h.mem_iff]
  exact entry_mem_fieldTable t w f v hv

theorem fieldOf_applyWord_of_isBijective {t : Substitution} (h : t.isBijective = true) (w : Fin 10)
    (word : UInt64) (f : Fin 8) :
    fieldOf (t.applyWord w word) f.val = t.entry w f (fieldOf word f.val) := by
  apply fieldOf_applyWord_of_lt
  intro g
  apply entry_lt (isBijection_fieldTable h w g)
  apply fieldOf_lt

theorem exists_invert_eq_ok {t : Substitution} (hsmall : ∀ i, ∀ v ∈ t.smallEntries i, v < 64)
    (hlarge : ∀ i, ∀ v ∈ t.largeEntries i, v < 1024) :
    ∃ u, t.invert = .ok u
      ∧ (∀ i, Table.Inverts (u.smallEntries i) (t.smallEntries i))
      ∧ ∀ i, Table.Inverts (u.largeEntries i) (t.largeEntries i) := by
  choose small hsmallEq hsmallInverts using fun i => Table.exists_invert_eq_ok (hsmall i)
  choose large hlargeEq hlargeInverts using fun i => Table.exists_invert_eq_ok (hlarge i)
  let u : Substitution := {
    small := Vector.ofFn fun i => (small i).map UInt8.ofNat
    large := Vector.ofFn fun i => (large i).map UInt16.ofNat }
  refine ⟨u, ?_, ?_, ?_⟩
  . unfold invert
    rw [ofFnM_eq_ok (g := fun i => (small i).map UInt8.ofNat)]
    . rw [ofFnM_eq_ok (g := fun i => (large i).map UInt16.ofNat)]
      . rfl
      . intro i
        rw [hlargeEq]
        rfl
    . intro i
      rw [hsmallEq]
      rfl
  . intro i
    have hentries : u.smallEntries i = small i := by
      apply Vector.ext
      intro v hv
      have := (hsmallInverts i).lt v hv
      simp [u, smallEntries, Vector.get_eq_getElem]
      omega
    rw [hentries]
    exact hsmallInverts i
  . intro i
    have hentries : u.largeEntries i = large i := by
      apply Vector.ext
      intro v hv
      have := (hlargeInverts i).lt v hv
      simp [u, largeEntries, Vector.get_eq_getElem]
      omega
    rw [hentries]
    exact hlargeInverts i

theorem exists_invert_entry {t : Substitution} (h : t.isBijective = true) :
    ∃ u, t.invert = .ok u
      ∧ ∀ w f v, v < 2 ^ fieldWidth f.val → u.entry w f (t.entry w f v) = v := by
  rw [isBijective_iff] at h
  rcases exists_invert_eq_ok (fun i => Table.lt_of_isBijection (h.left i))
    (fun i => Table.lt_of_isBijection (h.right i)) with ⟨u, hu, hsmall, hlarge⟩
  refine ⟨u, hu, ?_⟩
  intro w f v hv
  unfold entry fieldTable
  by_cases hf : f.val % 2 = 0
  . rw [fieldWidth_of_even hf] at hv
    rw [if_pos hf]
    rw [if_pos hf]
    exact (hsmall _).getD_getD (h.left _) v hv
  . rw [fieldWidth_of_odd (by omega)] at hv
    rw [if_neg hf]
    rw [if_neg hf]
    exact (hlarge w).getD_getD (h.right w) v hv

theorem exists_invert {t : Substitution} (h : t.isBijective = true) :
    ∃ u, t.invert = .ok u ∧ ∀ x, u.apply (t.apply x) = x := by
  rcases exists_invert_entry h with ⟨u, hu, hentry⟩
  refine ⟨u, hu, ?_⟩
  intro x
  apply Vector.ext
  intro w hw
  simp only [getElem_apply]
  apply applyWord_eq_of_entry_eq_fieldOf
  intro f
  rw [fieldOf_applyWord_of_isBijective h]
  apply hentry
  apply fieldOf_lt

end Substitution

end EpochCipher
