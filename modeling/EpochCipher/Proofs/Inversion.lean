import EpochCipher.Proofs.Checked

/-!
This module contains what comes of tables of any kind when they are inverted for decryption: the
first entry that is no index of its table ends the inversion and, with it, every decryption. Tables
without such an entry have inverses, which undo them as far as that can be.
-/

namespace EpochCipher

def error? : Except ε α → Option ε
  | .error e => some e
  | .ok _ => none

theorem error?_bind {f : α → Except ε β} {o : Option ε} (h : ∀ a, error? (f a) = o)
    (x : Except ε α) : error? (x >>= f) = (error? x).or o := by
  cases x with
  | error e => rfl
  | ok a => exact h a

theorem error?_map (f : α → β) (x : Except ε α) :
    error? (do return f (← x)) = error? x := by
  cases x with
  | error e => rfl
  | ok a => rfl

theorem error?_ofFnM (f : Fin n → Except ε α) :
    error? (Vector.ofFnM f) = (List.finRange n).findSome? fun i => error? (f i) := by
  induction n with
  | zero =>
    rw [Vector.ofFnM_zero]
    rfl
  | succ n ih =>
    rw [Vector.ofFnM_succ]
    rw [error?_bind fun _ => error?_map _ (f (Fin.last n))]
    rw [ih]
    rw [List.finRange_succ_last]
    rw [List.findSome?_append]
    rw [List.findSome?_map]
    rw [List.findSome?_singleton]
    rfl

theorem Table.error?_invert (table : Vector Nat n) :
    error? (invert table)
      =
    (table.toList.find? (n ≤ ·)).map fun v => { size := n, entry := v } := by
  cases hfind : table.toList.find? (n ≤ ·) with
  | none =>
    rw [List.find?_eq_none] at hfind
    have hlt : ∀ v ∈ table, v < n := by
      intro v hv
      simpa using hfind v (Vector.mem_toList_iff.mpr hv)
    rcases exists_invert_eq_ok hlt with ⟨inverse, hinvert, _⟩
    rw [hinvert]
    rfl
  | some v =>
    unfold invert
    rw [invert_go_eq_error _ _ _ hfind]
    rfl

namespace Substitution

/-- All entries in the order in which they are inverted, each behind the length of its table. -/
def references (t : Substitution) : List (Nat × Nat) :=
  (List.finRange 40).flatMap (fun i => (t.smallEntries i).toList.map fun v => (64, v))
    ++ (List.finRange 10).flatMap fun i => (t.largeEntries i).toList.map fun v => (1024, v)

theorem error?_invert (t : Substitution) :
    error? t.invert
      =
    (t.references.find? fun r => r.1 ≤ r.2).map fun r => { size := r.1, entry := r.2 } := by
  unfold invert
  rw [error?_bind fun _ => error?_map _ _]
  rw [error?_ofFnM]
  rw [error?_ofFnM]
  simp only [error?_map, Table.error?_invert]
  unfold references
  rw [List.find?_append]
  rw [Option.map_or]
  rw [List.find?_flatMap]
  rw [List.find?_flatMap]
  rw [List.map_findSome?]
  rw [List.map_findSome?]
  simp only [Function.comp_def, List.find?_map, Option.map_map]

theorem inRange_iff (t : Substitution) :
    t.InRange
      ↔
    (∀ i, ∀ v ∈ t.smallEntries i, v < 64) ∧ ∀ i, ∀ v ∈ t.largeEntries i, v < 1024 := by
  unfold smallEntries largeEntries
  constructor
  . intro h
    constructor
    . intro i v hv
      rcases Vector.getElem_of_mem hv with ⟨j, hj, rfl⟩
      rw [Vector.getElem_map]
      exact h.small_lt i ⟨j, hj⟩
    . intro i v hv
      rcases Vector.getElem_of_mem hv with ⟨j, hj, rfl⟩
      rw [Vector.getElem_map]
      exact h.large_lt i ⟨j, hj⟩
  . intro ⟨hsmall, hlarge⟩
    constructor
    . intro i v
      apply hsmall i
      apply Vector.mem_map_of_mem
      apply Vector.getElem_mem
    . intro i v
      apply hlarge i
      apply Vector.mem_map_of_mem
      apply Vector.getElem_mem

theorem find?_references_eq_none_iff (t : Substitution) :
    (t.references.find? fun r => r.1 ≤ r.2) = none ↔ t.InRange := by
  rw [inRange_iff]
  rw [List.find?_eq_none]
  unfold references
  simp only [List.forall_mem_append, List.forall_mem_flatMap, List.forall_mem_map,
    List.mem_finRange, Vector.mem_toList_iff, forall_const, decide_eq_true_eq, Nat.not_le]

end Substitution

namespace Schedule

open State

theorem decrypt_eq_error_iff (s : Schedule) (block : Block) (e : DecryptError) :
    s.decrypt block = .error e
      ↔
    ∃ r, (s.substitution.references.find? fun r => r.1 ≤ r.2) = some r
      ∧ e = .table { size := r.1, entry := r.2 } := by
  have hinvert : s.decrypt block = .error e
      ↔ ∃ r, error? s.substitution.invert = some r ∧ e = .table r := by
    unfold decrypt
    cases s.substitution.invert with
    | error r =>
      dsimp [bind, Except.bind, Except.mapError, error?]
      simp [eq_comm]
    | ok inverse =>
      rcases s.exists_unround_eq_ok inverse with ⟨f, hf⟩
      dsimp [bind, Except.bind, Except.mapError, error?]
      rw [foldrM_eq_ok hf]
      simp [pure, Except.pure]
  rw [hinvert]
  rw [Substitution.error?_invert]
  simp

theorem exists_decrypt_eq_error_iff (s : Schedule) (block : Block) :
    (∃ e, s.decrypt block = .error e) ↔ ¬s.substitution.InRange := by
  simp only [decrypt_eq_error_iff]
  rw [← Substitution.find?_references_eq_none_iff]
  rw [← Ne.eq_def]
  rw [Option.ne_none_iff_exists']
  constructor
  . intro ⟨_, r, hr, _⟩
    exact ⟨r, hr⟩
  . intro ⟨r, hr⟩
    exact ⟨_, r, hr, rfl⟩

/--
Encryption stays within the tables, whatever is in them. Decryption stays within them after their
inversion, which fails if there is an entry out of range and names the first one. If there is none,
the inverse of every table is known: it leads back from the table where no value is repeated, and
onto the table where no value is missing.
-/
theorem decrypt_fails_at_first_out_of_range (s : Schedule) (block : Block) :
    (Checked.encrypt s block = .ok (s.encrypt block)
        ∧ Checked.decrypt s block = s.decrypt block)
      ∧ ((∃ e, s.decrypt block = .error e) ↔ ¬s.substitution.InRange)
      ∧ (∀ e, s.decrypt block = .error e
        ↔ ∃ r, (s.substitution.references.find? fun r => r.1 ≤ r.2) = some r
          ∧ e = .table { size := r.1, entry := r.2 })
      ∧ (s.substitution.InRange → ∃ u, s.substitution.invert = .ok u
        ∧ (∀ i, Table.Inverts (u.smallEntries i) (s.substitution.smallEntries i)
          ∧ (Table.Undoes (u.smallEntries i) (s.substitution.smallEntries i)
            ↔ (s.substitution.smallEntries i).toList.Nodup)
          ∧ (Table.Undoes (s.substitution.smallEntries i) (u.smallEntries i)
            ↔ ∀ v < 64, v ∈ s.substitution.smallEntries i))
        ∧ ∀ i, Table.Inverts (u.largeEntries i) (s.substitution.largeEntries i)
          ∧ (Table.Undoes (u.largeEntries i) (s.substitution.largeEntries i)
            ↔ (s.substitution.largeEntries i).toList.Nodup)
          ∧ (Table.Undoes (s.substitution.largeEntries i) (u.largeEntries i)
            ↔ ∀ v < 1024, v ∈ s.substitution.largeEntries i)) := by
  refine ⟨⟨Checked.encrypt_eq_ok s block, Checked.decrypt_eq s block⟩,
    exists_decrypt_eq_error_iff s block, decrypt_eq_error_iff s block, ?_⟩
  intro h
  rw [Substitution.inRange_iff] at h
  rcases Substitution.exists_invert_eq_ok h.left h.right with ⟨u, hu, hsmall, hlarge⟩
  refine ⟨u, hu, ?_, ?_⟩
  . intro i
    exact ⟨hsmall i, (hsmall i).undoes_iff (h.left i), (hsmall i).undone_iff⟩
  . intro i
    exact ⟨hlarge i, (hlarge i).undoes_iff (h.right i), (hlarge i).undone_iff⟩

theorem decrypt_fails_at_first_out_of_range_zero :
    ∃ s : Schedule, s = { build 1 with
        substitution :=
          { small := Vector.replicate 40 (Vector.replicate 64 0)
            large := Vector.replicate 10 (Vector.replicate 1024 0) } }
      ∧ s.substitution.InRange
      ∧ ∃ u, s.substitution.invert = .ok u
        ∧ (∀ i, Table.Inverts (u.smallEntries i) (s.substitution.smallEntries i)
          ∧ (Table.Undoes (u.smallEntries i) (s.substitution.smallEntries i)
            ↔ (s.substitution.smallEntries i).toList.Nodup)
          ∧ (Table.Undoes (s.substitution.smallEntries i) (u.smallEntries i)
            ↔ ∀ v < 64, v ∈ s.substitution.smallEntries i))
        ∧ ∀ i, Table.Inverts (u.largeEntries i) (s.substitution.largeEntries i)
          ∧ (Table.Undoes (u.largeEntries i) (s.substitution.largeEntries i)
            ↔ (s.substitution.largeEntries i).toList.Nodup)
          ∧ (Table.Undoes (s.substitution.largeEntries i) (u.largeEntries i)
            ↔ ∀ v < 1024, v ∈ s.substitution.largeEntries i) := by
  have h : ({ small := Vector.replicate 40 (Vector.replicate 64 0)
              large := Vector.replicate 10 (Vector.replicate 1024 0) } : Substitution).InRange := by
    constructor
    . intro i v
      simp [Vector.get_eq_getElem]
    . intro i v
      simp [Vector.get_eq_getElem]
  refine ⟨_, rfl, h, ?_⟩
  exact (decrypt_fails_at_first_out_of_range _ (Vector.replicate 80 0)).right.right.right h

end Schedule

end EpochCipher
