import EpochCipher.Table
import Mathlib.Data.List.Nodup
import Mathlib.Data.List.Perm.Subperm
import Mathlib.Data.List.Range
import Mathlib.Order.Bounds.Basic

/-!
This module contains what the check for a bijection decides and what the inverse of a table holds.
-/

namespace EpochCipher

namespace Table

theorem set_fresh_iff (vs : List Nat) (seen : Vector Bool n) (v : Nat) (hv : v < n) :
    (∀ (u : Nat) (hu : u < n), u ∈ vs → (seen.set v true)[u] = false)
      ↔
    v ∉ vs ∧ ∀ (u : Nat) (hu : u < n), u ∈ vs → seen[u] = false := by
  constructor
  . intro h
    have hnotin : v ∉ vs := by
      intro hmem
      have := h v hv hmem
      simp at this
    refine ⟨hnotin, ?_⟩
    intro u hu hmem
    have := h u hu hmem
    rw [Vector.getElem_set] at this
    split at this
    . contradiction
    . exact this
  . intro ⟨hnotin, hfresh⟩ u hu hmem
    have hne : v ≠ u := by
      intro heq
      subst heq
      exact hnotin hmem
    rw [Vector.getElem_set_ne _ _ hne]
    exact hfresh u hu hmem

theorem go_eq_true_iff (vs : List Nat) (seen : Vector Bool n) :
    isBijection.go vs seen = true
      ↔
    (∀ v ∈ vs, v < n) ∧ vs.Nodup ∧ ∀ (v : Nat) (hv : v < n), v ∈ vs → seen[v] = false := by
  induction vs generalizing seen with
  | nil => simp [isBijection.go]
  | cons v vs ih =>
    rw [isBijection.go]
    split
    . next hv =>
      split
      . next hseen =>
        simp only [Bool.false_eq_true, false_iff]
        intro ⟨_, _, hfresh⟩
        have := hfresh v hv (by simp)
        rw [hseen] at this
        contradiction
      . next hseen =>
        rw [ih]
        rw [set_fresh_iff]
        rw [List.nodup_cons]
        simp only [List.mem_cons, forall_eq_or_imp]
        constructor
        . intro ⟨hlt, hnodup, hnotin, hfresh⟩
          refine ⟨⟨hv, hlt⟩, ⟨hnotin, hnodup⟩, ?_⟩
          intro u hu hmem
          cases hmem with
          | inl heq =>
            subst heq
            simpa using hseen
          | inr hmem => exact hfresh u hu hmem
        . intro ⟨⟨_, hlt⟩, ⟨hnotin, hnodup⟩, hfresh⟩
          exact ⟨hlt, hnodup, hnotin, fun u hu hmem => hfresh u hu (Or.inr hmem)⟩
    . next hv =>
      simp only [Bool.false_eq_true, false_iff]
      intro ⟨hlt, _⟩
      exact hv (hlt v (by simp))

theorem perm_range_of_nodup {table : List Nat} (hlt : ∀ v ∈ table, v < table.length)
    (hnodup : table.Nodup) : table.Perm (List.range table.length) := by
  have hsub : table ⊆ List.range table.length := by
    intro v hv
    rw [List.mem_range]
    exact hlt v hv
  apply (List.subperm_of_subset hnodup hsub).perm_of_length_le
  simp

theorem isBijection_iff (table : List Nat) :
    isBijection table = true ↔ table.Perm (List.range table.length) := by
  rw [isBijection]
  rw [go_eq_true_iff]
  constructor
  . intro ⟨hlt, hnodup, _⟩
    exact perm_range_of_nodup hlt hnodup
  . intro h
    refine ⟨?_, ?_, ?_⟩
    . intro v hv
      rw [← List.mem_range]
      exact h.mem_iff.mp hv
    . exact h.nodup_iff.mpr List.nodup_range
    . simp

theorem lt_of_isBijection {table : Vector Nat n} (h : isBijection table.toList = true) :
    ∀ v ∈ table, v < n := by
  intro v hv
  rw [isBijection_iff] at h
  rw [Vector.length_toList] at h
  rw [← List.mem_range]
  rw [← h.mem_iff]
  exact Vector.mem_toList_iff.mpr hv

theorem nodup_of_isBijection {table : List Nat} (h : isBijection table = true) :
    table.Nodup := by
  rw [isBijection_iff] at h
  exact h.nodup_iff.mpr List.nodup_range

theorem isBijection_of_range_subset {table : List Nat}
    (h : List.range table.length ⊆ table) : isBijection table = true := by
  rw [isBijection_iff]
  apply List.Perm.symm
  apply (List.subperm_of_subset List.nodup_range h).perm_of_length_le
  simp

theorem isGreatest_cons_zero {v : Nat} {vs : List Nat} (h : v ∉ vs) :
    IsGreatest {j | (v :: vs)[j]? = some v} 0 := by
  constructor
  . exact List.getElem?_cons_zero
  . intro j hj
    cases j with
    | zero => exact Nat.le_refl 0
    | succ j =>
      rw [Set.mem_ofPred_eq] at hj
      rw [List.getElem?_cons_succ] at hj
      exact absurd (List.mem_of_getElem? hj) h

theorem isGreatest_cons_succ {u v k : Nat} {vs : List Nat}
    (h : IsGreatest {j | vs[j]? = some v} k) :
    IsGreatest {j | (u :: vs)[j]? = some v} (k + 1) := by
  constructor
  . rw [Set.mem_ofPred_eq]
    rw [List.getElem?_cons_succ]
    exact h.left
  . intro j hj
    cases j with
    | zero => exact Nat.zero_le _
    | succ j =>
      rw [Set.mem_ofPred_eq] at hj
      rw [List.getElem?_cons_succ] at hj
      exact Nat.succ_le_succ (h.right hj)

theorem invert_go_eq_ok (vs : List Nat) (i : Nat) (inverse : Vector Nat n)
    (hlt : ∀ v ∈ vs, v < n) :
    ∃ result, invert.go i vs inverse = .ok result
      ∧ (∀ (v : Nat) (hv : v < n), v ∉ vs → result[v] = inverse[v])
      ∧ ∀ (v : Nat) (hv : v < n), v ∈ vs →
        ∃ k, IsGreatest {j | vs[j]? = some v} k ∧ result[v] = i + k := by
  induction vs generalizing i inverse with
  | nil => exact ⟨inverse, by simp [invert.go]⟩
  | cons u vs ih =>
    have hu : u < n := hlt u (by simp)
    have hlt' : ∀ v ∈ vs, v < n := fun v hv => hlt v (by simp [hv])
    rcases ih (i + 1) (inverse.set u i) hlt' with ⟨result, hgo, hother, hlast⟩
    refine ⟨result, ?_, ?_, ?_⟩
    . rw [invert.go]
      rw [dif_pos hu]
      exact hgo
    . intro v hv hmem
      rw [List.mem_cons] at hmem
      rw [hother v hv (by tauto)]
      rw [Vector.getElem_set_ne]
      tauto
    . intro v hv hmem
      by_cases hlater : v ∈ vs
      . rcases hlast v hv hlater with ⟨k, hk, hresult⟩
        refine ⟨k + 1, isGreatest_cons_succ hk, ?_⟩
        rw [hresult]
        omega
      . have heq : v = u := by
          rw [List.mem_cons] at hmem
          tauto
        subst heq
        refine ⟨0, isGreatest_cons_zero hlater, ?_⟩
        rw [hother v hv hlater]
        rw [Vector.getElem_set_self]
        omega

theorem invert_go_eq_error (vs : List Nat) (i : Nat) (inverse : Vector Nat n) {v : Nat}
    (h : vs.find? (n ≤ ·) = some v) :
    invert.go i vs inverse = .error { size := n, entry := v } := by
  induction vs generalizing i inverse with
  | nil => contradiction
  | cons u vs ih =>
    rw [invert.go]
    by_cases hu : u < n
    . rw [List.find?_cons_of_neg (by simpa using hu)] at h
      rw [dif_pos hu]
      exact ih (i + 1) (inverse.set u i) h
    . rw [List.find?_cons_of_pos (by simpa using hu)] at h
      rw [dif_neg hu]
      rw [Option.some.inj h]

structure Inverts (inverse table : Vector Nat n) : Prop where
  /-- A value that the table has is taken to the last index at which it stands. -/
  isGreatest : ∀ (v : Nat) (hv : v < n), v ∈ table →
    IsGreatest {i | table[i]? = some v} inverse[v]
  /-- A value that the table does not have is taken to zero. -/
  eq_zero : ∀ (v : Nat) (hv : v < n), v ∉ table → inverse[v] = 0

def Undoes (inverse table : Vector Nat n) : Prop :=
  ∀ (i : Nat) (hi : i < n), inverse[table[i]]? = some i

theorem exists_invert_eq_ok {table : Vector Nat n} (h : ∀ v ∈ table, v < n) :
    ∃ inverse, invert table = .ok inverse ∧ Inverts inverse table := by
  have hlt : ∀ v ∈ table.toList, v < n := by
    intro v hv
    exact h v (Vector.mem_toList_iff.mp hv)
  rcases invert_go_eq_ok table.toList 0 (Vector.replicate n 0) hlt with
    ⟨inverse, hgo, hother, hlast⟩
  refine ⟨inverse, hgo, ?_, ?_⟩
  . intro v hv hmem
    rcases hlast v hv (Vector.mem_toList_iff.mpr hmem) with ⟨k, hk, hinverse⟩
    rw [hinverse]
    rw [Nat.zero_add]
    simpa using hk
  . intro v hv hmem
    rw [hother v hv (by simpa using hmem)]
    exact Vector.getElem_replicate hv

namespace Inverts

variable {inverse table : Vector Nat n}

theorem lt (h : Inverts inverse table) (v : Nat) (hv : v < n) : inverse[v] < n := by
  by_cases hmem : v ∈ table
  . have := (h.isGreatest v hv hmem).left
    rw [Set.mem_ofPred_eq] at this
    rw [Vector.getElem?_eq_some_iff] at this
    exact this.1
  . rw [h.eq_zero v hv hmem]
    omega

theorem getElem?_table (h : Inverts inverse table) (v : Nat) (hv : v < n) :
    table[inverse[v]]? = some v ↔ v ∈ table := by
  constructor
  . intro hentry
    exact Vector.mem_of_getElem? hentry
  . intro hmem
    exact (h.isGreatest v hv hmem).left

theorem undone_iff (h : Inverts inverse table) :
    Undoes table inverse ↔ ∀ v < n, v ∈ table := by
  constructor
  . intro hall v hv
    exact (h.getElem?_table v hv).mp (hall v hv)
  . intro hall v hv
    exact (h.getElem?_table v hv).mpr (hall v hv)

theorem undoes_iff (h : Inverts inverse table) (hlt : ∀ v ∈ table, v < n) :
    Undoes inverse table ↔ table.toList.Nodup := by
  constructor
  . intro hall
    rw [List.nodup_iff_injective_getElem]
    intro ⟨i, hi⟩ ⟨j, hj⟩ heq
    rw [Vector.length_toList] at hi hj
    simp only [Vector.getElem_toList] at heq
    have hat := hall i hi
    simp only [heq] at hat
    rw [hall j hj] at hat
    exact Fin.ext (Option.some.inj hat).symm
  . intro hnodup i hi
    have hmem : table[i] ∈ table := Vector.getElem_mem hi
    have hv := hlt table[i] hmem
    rw [Vector.getElem?_eq_getElem hv]
    have hback := (h.getElem?_table table[i] hv).mpr hmem
    rw [Vector.getElem?_eq_some_iff] at hback
    rcases hback with ⟨hk, hback⟩
    have hk' : inverse[table[i]] < table.toList.length := by simpa using hk
    have hi' : i < table.toList.length := by simpa using hi
    have hentries : table.toList[inverse[table[i]]] = table.toList[i] := by simpa using hback
    rw [hnodup.getElem_inj_iff.mp hentries]

theorem getD_getD (h : Inverts inverse table) (hbijection : isBijection table.toList = true)
    (i : Nat) (hi : i < n) : inverse.toList.getD (table.toList.getD i 0) 0 = i := by
  have hback := (h.undoes_iff (lt_of_isBijection hbijection)).mpr
    (nodup_of_isBijection hbijection) i hi
  rw [List.getD_eq_getElem?_getD]
  rw [List.getD_eq_getElem?_getD]
  rw [Vector.getElem?_toList]
  rw [Vector.getElem?_toList]
  rw [Vector.getElem?_eq_getElem hi]
  rw [Option.getD_some]
  rw [hback]
  rw [Option.getD_some]

end Inverts

end Table

end EpochCipher
