import EpochCipher.Schedule
import EpochCipher.Proofs.Generator

/-!
This module contains the number of draws that every part of a schedule takes. It is the same for all
generators, so that each part can be computed on its own, from the generator that is as many draws
ahead of the seed as the parts before it take.
-/

namespace EpochCipher

namespace Draw

open Generator

def Takes (d : Draw α) (k : Nat) : Prop :=
  ∀ g, (d.run g).2 = advance k g

theorem Takes.of_eq {d : Draw α} (h : d.Takes m) (heq : m = n) : d.Takes n := by
  rw [← heq]
  exact h

theorem takes_pure (a : α) : (pure a : Draw α).Takes 0 := by
  intro g
  rw [run_pure]
  rw [advance_zero]

theorem takes_bind {d : Draw α} {f : α → Draw β} (hd : d.Takes m) (hf : ∀ a, (f a).Takes n) :
    (d >>= f).Takes (m + n) := by
  intro g
  rw [run_bind]
  rw [hf]
  rw [hd]
  rw [advance_advance]

theorem takes_bind_pure {d : Draw α} (hd : d.Takes k) (f : α → β) :
    (do return f (← d) : Draw β).Takes k :=
  takes_bind hd fun _ => takes_pure _

theorem takes_ofFnM {f : Fin n → Draw α} (h : ∀ i, (f i).Takes k) :
    (Vector.ofFnM f).Takes (k * n) := by
  intro g
  rw [run_ofFnM h]

theorem takes_next : next.Takes 1 := by
  intro g
  simp

theorem run_of_takes {d : Draw α} (h : d.Takes k) (g : Generator) :
    d.run g = (d.eval g, advance k g) := by
  rw [← h]
  rfl

theorem takes_bounded (bound : UInt32) : (bounded bound).Takes 1 :=
  takes_bind_pure takes_next _

theorem takes_word : word.Takes 2 := by
  intro g
  simp [advance_succ]

@[simp]
theorem eval_pure (a : α) (g : Generator) : (pure a : Draw α).eval g = a := by
  rw [eval_eq]
  rw [run_pure]

theorem eval_bind {d : Draw α} (h : d.Takes k) (f : α → Draw β) (g : Generator) :
    (d >>= f).eval g = (f (d.eval g)).eval (advance k g) := by
  rw [eval_eq]
  rw [run_bind]
  rw [h]
  rfl

theorem get_eval_ofFnM {f : Fin n → Draw α} (h : ∀ i, (f i).Takes k) (g : Generator) (i : Fin n) :
    ((Vector.ofFnM f).eval g).get i = (f i).eval (advance (k * i) g) := by
  rw [eval_eq]
  rw [run_ofFnM h]
  rw [Vector.get_eq_getElem]
  rw [Vector.getElem_ofFn]
  rfl

end Draw

open Draw Generator

theorem takes_positions (n : Nat) : (Shuffle.positions n).Takes (n - 1) := by
  have h := takes_ofFnM fun i : Fin (n - 1) =>
    takes_bind_pure (takes_bounded (UInt32.ofNat (i + 2))) UInt32.toNat
  rw [Nat.one_mul] at h
  exact h

theorem takes_shuffle (xs : Vector α n) : (shuffle xs).Takes (n - 1) :=
  takes_bind_pure (takes_positions n) _

namespace Substitution

theorem takes_small :
    (Vector.ofFnM fun _ : Fin smallCount => shuffle smallIdentity).Takes
      ((smallSize - 1) * smallCount) :=
  takes_ofFnM fun _ => takes_shuffle smallIdentity

theorem takes_large :
    (Vector.ofFnM fun _ : Fin largeCount => shuffle largeIdentity).Takes
      ((largeSize - 1) * largeCount) :=
  takes_ofFnM fun _ => takes_shuffle largeIdentity

theorem takes_draw : draw.Takes 12750 := by
  apply Takes.of_eq
  . exact takes_bind takes_small fun _ => takes_bind_pure takes_large _
  . decide

theorem eval_draw (g : Generator) :
    draw.eval g
      =
    { small := (Vector.ofFnM fun _ => shuffle smallIdentity).eval g
      large := (Vector.ofFnM fun _ => shuffle largeIdentity).eval
        (advance ((smallSize - 1) * smallCount) g) } := by
  unfold draw
  rw [eval_bind takes_small]
  rw [eval_bind takes_large]
  rw [eval_pure]

theorem get_small_eval_draw (g : Generator) (i : Fin 40) :
    (draw.eval g).small.get i = (shuffle smallIdentity).eval (advance (63 * i) g) := by
  rw [eval_draw]
  exact get_eval_ofFnM (fun _ => takes_shuffle smallIdentity) g i

theorem get_large_eval_draw (g : Generator) (j : Fin 10) :
    (draw.eval g).large.get j
      =
    (shuffle largeIdentity).eval (advance (2520 + 1023 * j) g) := by
  rw [eval_draw]
  rw [← advance_advance]
  exact get_eval_ofFnM (fun _ => takes_shuffle largeIdentity) (advance 2520 g) j

end Substitution

namespace Network

theorem takes_masks :
    (Vector.ofFnM fun _ : Fin subroundCount => Vector.ofFnM fun _ : Fin wordPairs => word).Takes
      (2 * wordPairs * subroundCount) :=
  takes_ofFnM fun _ => takes_ofFnM fun _ => takes_word

theorem takes_rotations :
    (Vector.ofFnM fun _ : Fin (subroundCount - 1) => Vector.ofFnM fun _ : Fin wordPairs => do
      return (← bounded 63) + 1).Takes (1 * wordPairs * (subroundCount - 1)) :=
  takes_ofFnM fun _ => takes_ofFnM fun _ => takes_bind_pure (takes_bounded 63) (· + 1)

theorem takes_draw : draw.Takes 85 := by
  apply Takes.of_eq
  . exact takes_bind takes_masks fun _ => takes_bind_pure takes_rotations _
  . decide

end Network

namespace RotationSet

theorem takes_draw : draw.Takes 62 := by
  apply Takes.of_eq
  . exact takes_bind_pure (takes_shuffle candidates) _
  . decide

end RotationSet

namespace Schedule

theorem takes_networks : (Vector.ofFnM fun _ : Fin 2 => Network.draw).Takes 170 := by
  apply Takes.of_eq
  . exact takes_ofFnM fun _ => Network.takes_draw
  . decide

theorem takes_roundKey : Takes (do return (← bounded 1024).toUInt16) 1 :=
  takes_bind_pure (takes_bounded 1024) _

theorem takes_roundKeys :
    (Vector.ofFnM fun _ : Fin roundCount => do return (← bounded 1024).toUInt16).Takes
      (1 * roundCount) :=
  takes_ofFnM fun _ => takes_roundKey

theorem takes_draw (key : UInt32) : (draw key).Takes 13066 := by
  apply Takes.of_eq
  . exact takes_bind Substitution.takes_draw fun _ =>
      takes_bind takes_networks fun _ =>
        takes_bind RotationSet.takes_draw fun _ => takes_bind_pure takes_roundKeys _
  . decide

theorem eval_draw (key : UInt32) (g : Generator) :
    (draw key).eval g
      =
    { key
      substitution := Substitution.draw.eval g
      networks := (Vector.ofFnM fun _ => Network.draw).eval (advance 12750 g)
      rotations := RotationSet.draw.eval (advance 12920 g)
      roundKeys := (Vector.ofFnM fun _ => do return (← bounded 1024).toUInt16).eval
        (advance 12982 g) } := by
  unfold draw
  rw [eval_bind Substitution.takes_draw]
  rw [eval_bind takes_networks]
  rw [eval_bind RotationSet.takes_draw]
  rw [eval_bind takes_roundKeys]
  rw [eval_pure]
  rw [advance_advance]
  rw [advance_advance]

/--
The draws that a part of the schedule is made of stand at the same places for all keys: `advance n`
is the generator after `n` draws. A schedule takes 13066 draws, and no other number of them below
`2 ^ 62` leads to the same generator.
-/
theorem draw_layout (key : UInt32) :
    (∀ n, ((Vector.ofFnM fun _ : Fin n => next).run (ofSeed key)).2 = advance n (ofSeed key))
      ∧ (∀ i : Fin 40, (build key).substitution.small.get i
        = (shuffle Substitution.smallIdentity).eval (advance (63 * i) (ofSeed key)))
      ∧ (∀ j : Fin 10, (build key).substitution.large.get j
        = (shuffle Substitution.largeIdentity).eval (advance (2520 + 1023 * j) (ofSeed key)))
      ∧ (∀ p : Fin 2, (build key).networks.get p
        = Network.draw.eval (advance (12750 + 85 * p) (ofSeed key)))
      ∧ (build key).rotations = RotationSet.draw.eval (advance 12920 (ofSeed key))
      ∧ (∀ r : Fin 84, (build key).roundKeys.get r
        = ((bounded 1024).eval (advance (12982 + r) (ofSeed key))).toUInt16)
      ∧ ∀ n, n < 2 ^ 62 ∧ ((draw key).run (ofSeed key)).2 = advance n (ofSeed key)
        ↔ n = 13066 := by
  unfold build
  rw [eval_draw]
  refine ⟨?_, ?_, ?_, ?_, rfl, ?_, ?_⟩
  . intro n
    rw [run_ofFnM_next]
  . exact Substitution.get_small_eval_draw (ofSeed key)
  . exact Substitution.get_large_eval_draw (ofSeed key)
  . intro p
    rw [← advance_advance]
    exact get_eval_ofFnM (fun _ => Network.takes_draw) (advance 12750 (ofSeed key)) p
  . intro r
    have h := get_eval_ofFnM (fun _ => takes_roundKey) (advance 12982 (ofSeed key)) r
    rw [Nat.one_mul] at h
    rw [← advance_advance]
    rw [h]
    rw [eval_bind (takes_bounded 1024)]
    rw [eval_pure]
  . intro n
    rw [takes_draw]
    constructor
    . intro ⟨hn, h⟩
      exact (advance_ofSeed_injOn key (by decide) hn h).symm
    . intro h
      rw [h]
      exact ⟨by decide, rfl⟩

end Schedule

end EpochCipher
