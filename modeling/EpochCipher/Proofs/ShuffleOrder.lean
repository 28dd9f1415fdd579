import EpochCipher.Proofs.DrawLayout
import EpochCipher.Proofs.Shuffle
import Mathlib.Logic.Equiv.Basic
import Mathlib.Data.List.OfFn

/-!
This module contains the order in which a shuffle leaves its elements. It depends on the positions
that are drawn and on nothing else, and every order comes from exactly one choice of positions.
-/

namespace EpochCipher

open Draw Generator

namespace Shuffle

def exchange (n i j : Nat) : Equiv.Perm (Fin n) :=
  if h : i < n ∧ j < n then Equiv.swap ⟨i, h.left⟩ ⟨j, h.right⟩ else Equiv.refl (Fin n)

theorem exchange_eq_swap {i j : Nat} (hi : i < n) (hj : j < n) :
    exchange n i j = Equiv.swap ⟨i, hi⟩ ⟨j, hj⟩ := by
  unfold exchange
  rw [dif_pos ⟨hi, hj⟩]

@[simp]
theorem get_swapIfInBounds (xs : Vector α n) (i j : Nat) (p : Fin n) :
    (xs.swapIfInBounds i j).get p = xs.get (exchange n i j p) := by
  by_cases h : i < n ∧ j < n
  . rw [swapIfInBounds_eq_swap xs h.left h.right]
    rw [exchange_eq_swap h.left h.right]
    rw [Vector.get_eq_getElem]
    rw [Vector.getElem_swap]
    rw [Equiv.swap_apply_def]
    simp only [Fin.ext_iff]
    split
    . rfl
    . split
      . rfl
      . rfl
  . rw [swapIfInBounds_eq_self xs h]
    unfold exchange
    rw [dif_neg h]
    rfl

/-- The place from which the swaps take the element that they leave at a place. -/
def order (n : Nat) (positions : List Nat) : Equiv.Perm (Fin n) :=
  go 1 positions
where
  go (i : Nat) : List Nat → Equiv.Perm (Fin n)
    | [] => Equiv.refl (Fin n)
    | j :: js => (go (i + 1) js).trans (exchange n i j)

theorem get_swapAll_go (positions : List Nat) (i : Nat) (xs : Vector α n) (p : Fin n) :
    (swapAll.go i xs positions).get p = xs.get (order.go n i positions p) := by
  induction positions generalizing i xs with
  | nil => rfl
  | cons j positions ih =>
    rw [swapAll.go]
    rw [ih]
    rw [get_swapIfInBounds]
    rfl

@[simp]
theorem get_swapAll (xs : Vector α n) (positions : List Nat) (p : Fin n) :
    (swapAll xs positions).get p = xs.get (order n positions p) :=
  get_swapAll_go positions 1 xs p

@[simp]
theorem swapAll_map (f : α → β) (xs : Vector α n) (positions : List Nat) :
    swapAll (xs.map f) positions = (swapAll xs positions).map f := by
  apply Vector.ext
  intro i hi
  rw [Vector.getElem_map]
  rw [← Vector.get_eq_getElem _ ⟨i, hi⟩]
  rw [← Vector.get_eq_getElem _ ⟨i, hi⟩]
  rw [get_swapAll]
  rw [get_swapAll]
  rw [Vector.get_eq_getElem]
  rw [Vector.getElem_map]
  rfl

theorem order_go_concat (positions : List Nat) (i j : Nat) :
    order.go n i (positions ++ [j])
      =
    (exchange n (i + positions.length) j).trans (order.go n i positions) := by
  induction positions generalizing i with
  | nil => rfl
  | cons j' positions ih =>
    rw [List.cons_append]
    rw [order.go]
    rw [ih]
    rw [order.go]
    rw [List.length_cons]
    rw [Nat.add_right_comm]
    rfl

theorem order_concat (positions : List Nat) (j : Nat) :
    order n (positions ++ [j])
      =
    (exchange n (positions.length + 1) j).trans (order n positions) := by
  unfold order
  rw [order_go_concat]
  rw [Nat.add_comm]

/-- Position `i`, counted from 1, is one of the first `i + 1` places. -/
def Bounded (positions : List Nat) : Prop :=
  ∀ (i : Nat) (h : i < positions.length), positions[i] ≤ i + 1

theorem bounded_concat (positions : List Nat) (j : Nat) :
    Bounded (positions ++ [j]) ↔ Bounded positions ∧ j ≤ positions.length + 1 := by
  unfold Bounded
  constructor
  . intro h
    constructor
    . intro i hi
      have := h i (by simp; omega)
      rw [List.getElem_append_left hi] at this
      exact this
    . have := h positions.length (by simp)
      simpa using this
  . intro ⟨hinit, hlast⟩ i hi
    rw [List.getElem_append]
    split
    . next hlt => exact hinit i hlt
    . next hge =>
      have : i = positions.length := by
        simp at hi
        omega
      simpa [this] using hlast

theorem order_apply_of_lt {positions : List Nat} (h : Bounded positions) (p : Fin n)
    (hp : positions.length < p.val) : order n positions p = p := by
  induction positions using List.reverseRecOn with
  | nil => rfl
  | append_singleton positions j ih =>
    rw [List.length_append] at hp
    rw [List.length_singleton] at hp
    rw [bounded_concat] at h
    rw [order_concat]
    rw [Equiv.trans_apply]
    have hne (i : Nat) (hi : i < n) (hle : i ≤ positions.length + 1) : p ≠ ⟨i, hi⟩ := by
      intro heq
      rw [heq] at hp
      dsimp at hp
      omega
    rw [exchange_eq_swap (by omega) (by omega)]
    rw [Equiv.swap_apply_of_ne_of_ne (hne _ _ (Nat.le_refl _)) (hne j _ h.right)]
    exact ih h.left (by omega)

theorem eq_refl_of_fixes {π : Equiv.Perm (Fin n)} (h : ∀ p, 0 < p.val → π p = p) :
    π = Equiv.refl (Fin n) := by
  apply Equiv.ext
  intro p
  rw [Equiv.refl_apply]
  by_cases hp : 0 < (π p).val
  . exact π.injective (h (π p) hp)
  . by_cases hp' : 0 < p.val
    . exact h p hp'
    . apply Fin.ext
      omega

theorem swap_trans_fixes {π : Equiv.Perm (Fin n)} {q : Fin n}
    (hπ : ∀ p, q.val < p.val → π p = p) (p : Fin n) (hp : q.val ≤ p.val) :
    (Equiv.swap q (π.symm q)).trans π p = p := by
  rw [Equiv.trans_apply]
  by_cases h : p = q
  . rw [h]
    rw [Equiv.swap_apply_left]
    rw [Equiv.apply_symm_apply]
  . have hlt : q.val < p.val := by
      have := Fin.val_ne_of_ne h
      omega
    have hne : p ≠ π.symm q := by
      intro heq
      apply h
      rw [← hπ p hlt]
      rw [heq]
      rw [Equiv.apply_symm_apply]
    rw [Equiv.swap_apply_of_ne_of_ne h hne]
    exact hπ p hlt

theorem symm_apply_le {π : Equiv.Perm (Fin n)} {q : Fin n}
    (hπ : ∀ p, q.val < p.val → π p = p) : (π.symm q).val ≤ q.val := by
  by_cases h : q.val < (π.symm q).val
  . have := hπ _ h
    rw [Equiv.apply_symm_apply] at this
    rw [← this]
  . omega

@[simp]
theorem swap_trans_swap_trans (p q : Fin n) (σ : Equiv.Perm (Fin n)) :
    (Equiv.swap p q).trans ((Equiv.swap p q).trans σ) = σ := by
  rw [← Equiv.trans_assoc]
  rw [Equiv.swap_swap]
  rw [Equiv.refl_trans]

theorem order_concat_eq_iff {positions : List Nat} (h : Bounded positions) {q : Fin n}
    (hq : q.val = positions.length + 1) {j : Nat} (hj : j ≤ q.val) (π : Equiv.Perm (Fin n)) :
    order n (positions ++ [j]) = π
      ↔
    j = (π.symm q).val ∧ order n positions = (Equiv.swap q (π.symm q)).trans π := by
  have hjn : j < n := by omega
  rw [order_concat]
  rw [← hq]
  rw [exchange_eq_swap q.isLt hjn]
  rw [Fin.eta]
  constructor
  . intro horder
    have hplace : π ⟨j, hjn⟩ = q := by
      rw [← horder]
      rw [Equiv.trans_apply]
      rw [Equiv.swap_apply_right]
      exact order_apply_of_lt h q (by omega)
    have hsymm : π.symm q = ⟨j, hjn⟩ := by
      rw [← hplace]
      rw [Equiv.symm_apply_apply]
    rw [hsymm]
    refine ⟨rfl, ?_⟩
    rw [← horder]
    rw [swap_trans_swap_trans]
  . intro ⟨hplace, horder⟩
    have hsymm : ⟨j, hjn⟩ = π.symm q := Fin.ext hplace
    rw [hsymm]
    rw [horder]
    rw [swap_trans_swap_trans]

theorem existsUnique_order {k : Nat} (hk : k < n) {π : Equiv.Perm (Fin n)}
    (hπ : ∀ p, k < p.val → π p = p) :
    ∃! positions : List Nat, positions.length = k ∧ Bounded positions ∧ order n positions = π := by
  -- The places beyond the first `k + 1` are those that `k` swaps do not reach.
  induction k generalizing π with
  | zero =>
    refine ⟨[], ⟨rfl, ?_, (eq_refl_of_fixes hπ).symm⟩, ?_⟩
    . intro i hi
      contradiction
    . intro positions ⟨hlength, _⟩
      exact List.eq_nil_of_length_eq_zero hlength
  | succ k ih =>
    let q : Fin n := ⟨k + 1, hk⟩
    have hj : (π.symm q).val ≤ k + 1 := symm_apply_le (q := q) hπ
    have hfixes := swap_trans_fixes (q := q) hπ
    rcases ih (by omega) hfixes with ⟨init, ⟨hlength, hbounded, horder⟩, hunique⟩
    refine ⟨init ++ [(π.symm q).val], ⟨?_, ?_, ?_⟩, ?_⟩
    . rw [List.length_append]
      rw [List.length_singleton]
      rw [hlength]
    . rw [bounded_concat]
      rw [hlength]
      exact ⟨hbounded, hj⟩
    . rw [order_concat_eq_iff hbounded (q := q) (by rw [hlength]) hj]
      exact ⟨rfl, horder⟩
    . intro positions ⟨hlength', hbounded', horder'⟩
      cases positions using List.reverseRecOn with
      | nil => contradiction
      | append_singleton init' j =>
        rw [List.length_append] at hlength'
        rw [List.length_singleton] at hlength'
        rw [bounded_concat] at hbounded'
        rcases hbounded' with ⟨hinit, hlast⟩
        rw [order_concat_eq_iff hinit (q := q) (by dsimp [q]; omega) (by dsimp [q]; omega)]
          at horder'
        rw [horder'.left]
        rw [hunique init' ⟨by omega, hinit, horder'.right⟩]

theorem swapAll_range_eq_iff (positions : List Nat) (π : Equiv.Perm (Fin n)) :
    swapAll (Vector.range n) positions = (Vector.ofFn fun p => (π p).val)
      ↔
    order n positions = π := by
  have hget (p : Fin n) : (swapAll (Vector.range n) positions).get p
      = (order n positions p).val := by
    rw [get_swapAll]
    rw [Vector.get_eq_getElem]
    rw [Vector.getElem_range]
  constructor
  . intro h
    apply Equiv.ext
    intro p
    apply Fin.ext
    rw [← hget]
    rw [h]
    rw [Vector.get_eq_getElem]
    rw [Vector.getElem_ofFn]
  . intro h
    apply Vector.ext
    intro i hi
    rw [Vector.getElem_ofFn]
    rw [← h]
    exact hget ⟨i, hi⟩

theorem bounded_toList (positions : Vector Nat n) :
    Bounded positions.toList ↔ ∀ i : Fin n, positions.get i ≤ i.val + 1 := by
  unfold Bounded
  constructor
  . intro h i
    simpa [Vector.get_eq_getElem] using h i.val (by simp)
  . intro h i hi
    rw [Vector.length_toList] at hi
    simpa [Vector.get_eq_getElem] using h ⟨i, hi⟩

theorem existsUnique_positions (n : Nat) (π : Equiv.Perm (Fin (n + 1))) :
    ∃! js : Vector Nat n, (∀ i : Fin n, js.get i ≤ i.val + 1)
      ∧ swapAll (Vector.range (n + 1)) js.toList = Vector.ofFn fun p => (π p).val := by
  have hfixes : ∀ p : Fin (n + 1), n < p.val → π p = p := by
    intro p hp
    omega
  rcases existsUnique_order (Nat.lt_succ_self n) hfixes with
    ⟨positions, ⟨hlength, hbounded, horder⟩, hunique⟩
  let js : Vector Nat n := ⟨positions.toArray, hlength⟩
  have hjs : js.toList = positions := rfl
  refine ⟨js, ?_, ?_⟩
  . dsimp only
    rw [← bounded_toList]
    rw [swapAll_range_eq_iff]
    rw [hjs]
    exact ⟨hbounded, horder⟩
  . intro js' ⟨hbounded', horder'⟩
    rw [← bounded_toList] at hbounded'
    rw [swapAll_range_eq_iff] at horder'
    apply Vector.toList_inj.mp
    rw [hjs]
    exact hunique js'.toList ⟨js'.length_toList, hbounded', horder'⟩

theorem get_eval_positions (n : Nat) (g : Generator) (i : Fin (n - 1)) :
    ((positions n).eval g).get i
      =
    ((bounded (UInt32.ofNat (i.val + 2))).eval (advance i.val g)).toNat := by
  have h := get_eval_ofFnM
    (fun i : Fin (n - 1) => takes_bind_pure (takes_bounded (UInt32.ofNat (i + 2))) UInt32.toNat) g i
  rw [Nat.one_mul] at h
  exact h

theorem get_eval_positions_le {n : Nat} (hn : n < 2 ^ 32) (g : Generator) (i : Fin (n - 1)) :
    ((positions n).eval g).get i ≤ i.val + 1 := by
  have hbound : (UInt32.ofNat (i.val + 2)).toNat = i.val + 2 :=
    UInt32.toNat_ofNat_of_lt' (by unfold UInt32.size; omega)
  have hpos : 0 < (UInt32.ofNat (i.val + 2)).toNat := by omega
  have hlt := always_bounded (UInt32.ofNat (i.val + 2)) hpos (advance i.val g)
  rw [hbound] at hlt
  rw [get_eval_positions]
  omega

end Shuffle

open Shuffle

theorem eval_shuffle (xs : Vector α n) (g : Generator) :
    (shuffle xs).eval g = swapAll xs ((positions n).eval g).toList := by
  unfold shuffle
  rw [eval_eq]
  rw [run_bind]
  rw [run_pure]
  rfl

theorem run_positions?_of_lt (h : n < UInt32.size) (g : Generator) :
    (positions? n).run g = (.ok ((positions n).eval g).toList, advance (n - 1) g) := by
  unfold positions?
  rw [if_pos h]
  rw [run_bind]
  rw [run_pure]
  rw [run_of_takes (takes_positions n)]

theorem run_shuffle?_of_lt (xs : Vector α n) (h : n < UInt32.size) (g : Generator) :
    (shuffle? xs.toArray).run g = (.ok ((shuffle xs).eval g).toArray, advance (n - 1) g) := by
  rcases xs with ⟨xs, rfl⟩
  unfold shuffle?
  rw [run_bind]
  rw [run_pure]
  rw [run_positions?_of_lt h]
  rw [eval_shuffle]
  rfl

theorem run_shuffle?_of_ge (xs : Vector α n) (h : UInt32.size ≤ n) (g : Generator) :
    (shuffle? xs.toArray).run g = (.error { size := n }, g) := by
  rcases xs with ⟨xs, rfl⟩
  unfold shuffle? positions?
  rw [if_neg (Nat.not_lt.mpr h)]
  rfl

/--
A shuffle of `n < 2 ^ 32` elements draws one position within bounds for every element but the first.
It leaves the elements in an order that depends on `n` and the generator alone, whatever they are.
More elements are refused before the first draw.
-/
theorem shuffle?_rearranges (n : Nat) (g : Generator) :
    (∀ k, ((Vector.ofFnM fun _ : Fin k => next).run g).2 = advance k g)
      ∧ (n < 2 ^ 32 → ∃ (js : Vector Nat (n - 1)) (σ : Equiv.Perm (Fin n)),
        (positions? n).run g = (.ok js.toList, advance (n - 1) g)
          ∧ (∀ i : Fin (n - 1),
            js.get i = ((bounded (UInt32.ofNat (i.val + 2))).eval (advance i.val g)).toNat
              ∧ js.get i ≤ i.val + 1)
          ∧ ∀ (α : Type) (xs : Vector α n), ∃ ys : Vector α n,
            (shuffle? xs.toArray).run g = (.ok ys.toArray, advance (n - 1) g)
              ∧ (shuffle xs).run g = (ys, advance (n - 1) g)
              ∧ ys = swapAll xs js.toList
              ∧ ys.toList.Perm xs.toList
              ∧ (∀ p : Fin n, ys.get p = xs.get (σ p))
              ∧ ∀ (β : Type) (f : α → β),
                (shuffle? (xs.toArray.map f)).run g = (.ok (ys.toArray.map f), advance (n - 1) g))
      ∧ (2 ^ 32 ≤ n → ∀ (α : Type) (xs : Vector α n),
        (shuffle? xs.toArray).run g = (.error { size := n }, g)) := by
  refine ⟨?_, ?_, ?_⟩
  . intro k
    rw [run_ofFnM_next]
  . intro h
    refine ⟨(positions n).eval g, order n ((positions n).eval g).toList,
      run_positions?_of_lt h g, ?_, ?_⟩
    . intro i
      exact ⟨get_eval_positions n g i, get_eval_positions_le h g i⟩
    . intro α xs
      refine ⟨(shuffle xs).eval g, run_shuffle?_of_lt xs h g, run_of_takes (takes_shuffle xs) g,
        eval_shuffle xs g, always_shuffle xs g, ?_, ?_⟩
      . intro p
        rw [eval_shuffle]
        exact get_swapAll xs _ p
      . intro β f
        rw [← Vector.toArray_map]
        rw [← Vector.toArray_map]
        rw [run_shuffle?_of_lt _ h]
        rw [eval_shuffle]
        rw [eval_shuffle]
        rw [swapAll_map]
  . intro h α xs
    exact run_shuffle?_of_ge xs h g

theorem shuffle?_rearranges_at_limit :
    (4294967295 < 2 ^ 32
        ∧ ∃ ys : Vector Unit 4294967295,
          (shuffle? (Vector.replicate 4294967295 ()).toArray).run (ofSeed 1)
            =
          (.ok ys.toArray, advance 4294967294 (ofSeed 1)))
      ∧ 2 ^ 32 ≤ 4294967296
      ∧ (shuffle? (Vector.replicate 4294967296 ()).toArray).run (ofSeed 1)
        =
      (.error { size := 4294967296 }, ofSeed 1) := by
  have hlt : 4294967295 < 2 ^ 32 := by decide
  have hge : 2 ^ 32 ≤ 4294967296 := by decide
  rcases (shuffle?_rearranges 4294967295 (ofSeed 1)).right.left hlt with ⟨_, _, _, _, h⟩
  rcases h Unit (Vector.replicate 4294967295 ()) with ⟨ys, hys, _⟩
  refine ⟨⟨hlt, ys, hys⟩, hge, ?_⟩
  exact (shuffle?_rearranges 4294967296 (ofSeed 1)).right.right hge Unit _

end EpochCipher
