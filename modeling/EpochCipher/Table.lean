/-!
This module contains the tables that substitute one field, as lists of numbers: when such a table is
a permutation of its own indices, and how it is inverted.
-/

namespace EpochCipher

structure EntryOutOfRange where
  size : Nat
  entry : Nat
  deriving DecidableEq

namespace EntryOutOfRange

def message (e : EntryOutOfRange) : String :=
  "index out of bounds: the len is " ++ toString e.size ++ " but the index is " ++ toString e.entry

end EntryOutOfRange

namespace Table

def isBijection (table : List Nat) : Bool :=
  go table (Vector.replicate table.length false)
where
  go {n : Nat} : List Nat → Vector Bool n → Bool
    | [], _ => true
    | v :: vs, seen =>
      if h : v < n then
        if seen[v] then false else go vs (seen.set v true)
      else
        false

/--
The inverse table: zeros, into which every index is written at the place that its entry names, in
rising order. Of equal entries the last one stays. Fails at the first entry that is no index.
-/
def invert (table : Vector Nat n) : Except EntryOutOfRange (Vector Nat n) :=
  go 0 table.toList (Vector.replicate n 0)
where
  go (i : Nat) : List Nat → Vector Nat n → Except EntryOutOfRange (Vector Nat n)
    | [], inverse => .ok inverse
    | v :: vs, inverse =>
      if h : v < n then
        go (i + 1) vs (inverse.set v i)
      else
        .error { size := n, entry := v }

end Table

end EpochCipher
