import Mathlib

/-!
This module contains facts about vectors and their indices: that there are finitely many vectors
over a finite type, how a function on them is undone, what a fold over them or over their indices
keeps, how folds are undone, how indices are counted, when images are equal, how vectors that differ
at one index are split there, and what comes of steps that may fail.
-/

namespace EpochCipher

theorem toList_eq_ofFn (xs : Vector α n) : xs.toList = List.ofFn xs.get := by
  apply List.ext_getElem
  . simp
  . intro i h1 h2
    simp [Vector.get_eq_getElem]

instance finite_vector [Finite α] : Finite (Vector α n) := by
  have hinj : Function.Injective fun (xs : Vector α n) (i : Fin n) => xs[i.val] := by
    intro xs ys h
    ext i hi
    exact congrFun h ⟨i, hi⟩
  exact Finite.of_injective _ hinj

theorem apply_undo_of_undo_apply {α : Type u} [Finite α] {f g : α → α} (h : ∀ a, g (f a) = a)
    (a : α) : f (g a) = a := by
  have hleft : Function.LeftInverse g f := h
  have hsurj : Function.Surjective f := Finite.injective_iff_surjective.mp hleft.injective
  rcases hsurj a with ⟨b, hb⟩
  rw [← hb]
  rw [h]

theorem injective_of_recover {f : α → β} {g : β → Except ε α} (h : ∀ a, g (f a) = .ok a) :
    Function.Injective f := by
  intro a b hab
  have ha := h a
  rw [hab] at ha
  rw [h b] at ha
  exact (Except.ok.inj ha).symm

theorem exists_recover {α : Type u} [Finite α] {f : α → α} {g : α → Except ε α}
    (h : ∀ a, g (f a) = .ok a) (b : α) : ∃ a, g b = .ok a ∧ f a = b := by
  rcases Finite.injective_iff_surjective.mp (injective_of_recover h) b with ⟨a, ha⟩
  refine ⟨a, ?_, ha⟩
  rw [← ha]
  exact h a

theorem foldrM_foldl_cancel {step : β → α → β} {unstep : α → β → Except ε β}
    (h : ∀ a b, unstep a (step b a) = .ok b) (xs : Vector α n) (b : β) :
    xs.foldrM unstep (xs.foldl step b) = .ok b := by
  rw [← Vector.foldl_toList]
  rw [← Vector.foldrM_toList]
  generalize xs.toList = as
  induction as generalizing b with
  | nil => rfl
  | cons a as ih =>
    rw [List.foldl_cons]
    rw [List.foldrM_cons]
    rw [ih]
    exact h a b

theorem finFoldr_finFoldl_cancel {step : β → Fin n → β} {unstep : Fin n → β → β}
    (h : ∀ i b, unstep i (step b i) = b) (b : β) :
    Fin.foldr n unstep (Fin.foldl n step b) = b := by
  induction n generalizing b with
  | zero => simp
  | succ n ih =>
    rw [Fin.foldl_succ_last]
    rw [Fin.foldr_succ_last]
    rw [h]
    apply ih
    intro i b
    apply h

theorem foldl_injective {step : β → α → β} (h : ∀ a, Function.Injective fun b => step b a)
    (as : List α) : Function.Injective fun b => as.foldl step b := by
  induction as with
  | nil => exact Function.injective_id
  | cons a as ih => exact ih.comp (h a)

theorem finFoldl_induction (motive : Nat → β → Prop) (step : β → Fin n → β) (init : β)
    (hinit : motive 0 init) (hstep : ∀ i b, motive i.val b → motive (i.val + 1) (step b i)) :
    motive n (Fin.foldl n step init) := by
  induction n with
  | zero => simpa using hinit
  | succ n ih =>
    rw [Fin.foldl_succ_last]
    apply hstep (Fin.last n)
    apply ih
    intro i b
    apply hstep i.castSucc

theorem foldl_eq_finFoldl {step : β → α → β} (xs : Vector α n) (init : β) :
    xs.foldl step init = Fin.foldl n (fun b i => step b xs[i.val]) init := by
  have hlist : xs.toList = (List.finRange n).map fun i => xs[i.val] := by
    apply List.ext_getElem
    . simp
    . intro i h1 h2
      simp
  rw [← Vector.foldl_toList]
  rw [hlist]
  rw [List.foldl_map]
  rw [Fin.foldl_eq_finRange_foldl]

theorem countP_range_eq_sum (p : Nat → Bool) (n : Nat) :
    (List.range n).countP p = ∑ i : Fin n, (p i.val).toNat := by
  induction n with
  | zero => simp
  | succ n ih =>
    rw [List.range_succ]
    rw [List.countP_append]
    rw [ih]
    rw [Fin.sum_univ_castSucc]
    rw [List.countP_singleton]
    cases h : p n with
    | false => simp [h]
    | true => simp [h]

theorem map_eq_map_iff_get {f : α → β} {xs ys : Vector α n} :
    xs.map f = ys.map f ↔ ∀ i : Fin n, f (xs.get i) = f (ys.get i) := by
  constructor
  . intro h i
    have := congrArg (fun zs => zs[i.val]) h
    simpa [Vector.get_eq_getElem] using this
  . intro h
    apply Vector.ext
    intro i hi
    simpa [Vector.get_eq_getElem] using h ⟨i, hi⟩

theorem exists_toList_eq_append_cons {xs ys : Vector α n} (i : Fin n)
    (h : ∀ j ≠ i, xs.get j = ys.get j) :
    ∃ before behind, xs.toList = before ++ xs.get i :: behind
      ∧ ys.toList = before ++ ys.get i :: behind := by
  have hset : ys = xs.set i.val (ys.get i) := by
    apply Vector.ext
    intro j hj
    rw [Vector.getElem_set]
    split
    . next heq =>
      subst heq
      rfl
    . next hne =>
      symm
      apply h ⟨j, hj⟩
      intro heq
      rw [← heq] at hne
      contradiction
  refine ⟨xs.toList.take i.val, xs.toList.drop (i.val + 1), ?_, ?_⟩
  . rw [Vector.get_eq_getElem]
    rw [← Vector.getElem_toList]
    rw [List.getElem_cons_drop]
    rw [List.take_append_drop]
    simp
  . conv => lhs; rw [hset]
    rw [Vector.toList_set]
    rw [List.set_eq_take_append_cons_drop]
    simp

theorem ofFnM_eq_ok {f : Fin n → Except ε α} {g : Fin n → α} (h : ∀ i, f i = .ok (g i)) :
    Vector.ofFnM f = .ok (Vector.ofFn g) := by
  rw [funext h]
  exact Vector.ofFnM_pure

theorem finFoldlM_eq_ok {f : β → Fin n → Except ε β} {g : β → Fin n → β}
    (h : ∀ b i, f b i = .ok (g b i)) (b : β) :
    Fin.foldlM n f b = .ok (Fin.foldl n g b) := by
  rw [funext fun b => funext (h b)]
  exact Fin.foldlM_pure

theorem foldlM_eq_ok {f : β → α → Except ε β} {g : β → α → β}
    (h : ∀ b a, f b a = .ok (g b a)) (xs : Vector α n) (b : β) :
    xs.foldlM f b = .ok (xs.foldl g b) := by
  rw [funext fun b => funext (h b)]
  exact Vector.foldlM_pure

theorem foldrM_eq_ok {f : α → β → Except ε β} {g : α → β → β}
    (h : ∀ a b, f a b = .ok (g a b)) (xs : Vector α n) (b : β) :
    xs.foldrM f b = .ok (xs.foldr g b) := by
  rw [funext fun a => funext (h a)]
  exact Vector.foldrM_pure

end EpochCipher
