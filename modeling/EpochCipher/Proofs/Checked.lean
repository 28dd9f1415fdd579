import EpochCipher.Cipher.Checked
import EpochCipher.Proofs.Cipher
import EpochCipher.Proofs.Fieldwise

/-!
This module contains the proof that no table is ever indexed out of bounds, whatever its entries:
a field of a word is smaller than its table, and every layer leaves words behind. The checked cipher
is the cipher itself.
-/

namespace EpochCipher

namespace Checked

open State

theorem fieldIndex_eq (word : UInt64) {pos width : Nat} (hpos : pos < 64) (hwidth : width < 64) :
    fieldIndex word pos width = (Word.field word pos width).toNat := by
  have hpow : 2 ^ width < 2 ^ 64 := Nat.pow_lt_pow_right (by decide) hwidth
  have hshift : ((1 : UInt64) <<< UInt64.ofNat width).toNat = 2 ^ width := by
    simpa [Nat.mod_eq_of_lt hwidth, Nat.one_shiftLeft] using hpow
  have hmask : ((1 : UInt64) <<< UInt64.ofNat width - 1).toNat = 2 ^ width - 1 := by
    rw [UInt64.toNat_sub_of_le]
    . rw [hshift]
      rfl
    . rw [UInt64.le_iff_toNat_le]
      rw [hshift]
      exact Nat.one_le_two_pow
  unfold fieldIndex
  rw [UInt64.toNat_and]
  rw [hmask]
  rw [Nat.and_two_pow_sub_one_eq_mod]
  rw [Substitution.toNat_field]
  rw [UInt64.toNat_shiftRight]
  rw [Nat.shiftRight_eq_div_pow]
  simp [Nat.mod_eq_of_lt hpos]

theorem lookup_fieldIndex (table : Vector α n) (word : UInt64) {pos width : Nat} (hpos : pos < 64)
    (hwidth : width < 64) (h : 2 ^ width = n) :
    lookup table (fieldIndex word pos width)
      =
    .ok (table[(Word.field word pos width).toFin.cast h]) := by
  have hlt : fieldIndex word pos width < n := by
    rw [← h]
    rw [fieldIndex_eq word hpos hwidth]
    apply BitVec.isLt
  unfold lookup
  rw [dif_pos hlt]
  simp [fieldIndex_eq word hpos hwidth]

@[simp]
theorem applyWord_eq_ok (t : Substitution) (w : Fin 10) (word : UInt64) :
    applyWord t w word = .ok (t.applyWord w word) := by
  unfold applyWord
  apply finFoldlM_eq_ok
  intro next p
  have hp : p.val < 4 := p.isLt
  have hpos : 16 * p.val + smallWidth < 64 := by
    unfold smallWidth
    omega
  rw [lookup_fieldIndex _ word (by omega) (by decide) (by rfl)]
  rw [lookup_fieldIndex _ word hpos (by decide) (by rfl)]
  rfl

@[simp]
theorem apply_eq_ok (t : Substitution) (x : State) : apply t x = .ok (t.apply x) := by
  unfold apply
  rw [ofFnM_eq_ok fun w => applyWord_eq_ok t w (x.get w)]
  congr 1
  apply Vector.ext
  intro w hw
  rw [Vector.getElem_ofFn]
  exact (Substitution.getElem_apply t x w hw).symm

@[simp]
theorem round_eq_ok (s : Schedule) (x : State) (roundKey : UInt16) :
    round s x roundKey = .ok (s.round x roundKey) := by
  unfold round
  rw [apply_eq_ok]
  rfl

@[simp]
theorem encrypt_eq_ok (s : Schedule) (plain : Block) :
    encrypt s plain = .ok (s.encrypt plain) := by
  unfold encrypt
  rw [foldlM_eq_ok (round_eq_ok s)]
  rfl

theorem unround_eq_ok {s : Schedule} {inverse : Substitution} {f : UInt16 → State → State}
    (h : ∀ roundKey x, s.unround inverse roundKey x = .ok (f roundKey x)) (roundKey : UInt16)
    (x : State) : unround s inverse roundKey x = .ok (f roundKey x) := by
  have hround := h roundKey x
  unfold Schedule.unround at hround
  unfold unround
  rw [linearUnmix_eq] at hround ⊢
  dsimp [bind, Except.bind, pure, Except.pure, Except.mapError] at hround ⊢
  rw [apply_eq_ok]
  exact congrArg Except.ok (Except.ok.inj hround)

theorem decrypt_eq (s : Schedule) (cipher : Block) : decrypt s cipher = s.decrypt cipher := by
  unfold decrypt
  unfold Schedule.decrypt
  cases s.substitution.invert with
  | error e => rfl
  | ok inverse =>
    rcases s.exists_unround_eq_ok inverse with ⟨f, hf⟩
    dsimp [bind, Except.bind, Except.mapError]
    rw [foldrM_eq_ok hf]
    rw [foldrM_eq_ok (unround_eq_ok hf)]

end Checked

end EpochCipher
