/-!
This module contains the faults that the library reports, with their texts.
-/

namespace EpochCipher

inductive Fault where
  | inputTooLong (len max : Nat)
  | substitutionNotBijective
  /-- The rotation set has an amount outside `[1, 63]`, a repeated amount or an even sum. -/
  | invalidRotationSet
  | invalidInterval
  deriving DecidableEq

namespace Fault

/-- Whether the fault can only come from a broken schedule. -/
def isInvariantViolation : Fault → Bool
  | inputTooLong _ _ => false
  | substitutionNotBijective => true
  | invalidRotationSet => true
  | invalidInterval => false

def message : Fault → String
  | inputTooLong len max =>
    "Input of " ++ toString len ++ " bytes exceeds the " ++ toString max ++ " byte block"
  | substitutionNotBijective => "Substitution table is not a bijection"
  | invalidRotationSet => "Rotation set must hold distinct non-zero amounts with odd sum"
  | invalidInterval => "Shape-change interval must be greater than zero"

def kind : Fault → String
  | inputTooLong _ _ => "InputTooLong"
  | substitutionNotBijective => "SboxNotBijective"
  | invalidRotationSet => "InvalidRotationSet"
  | invalidInterval => "InvalidInterval"

def describe (f : Fault) : String :=
  match f with
  | inputTooLong len max =>
    f.kind ++ " \x7b len: " ++ toString len ++ ", max: " ++ toString max ++ " \x7d"
  | _ => f.kind

end Fault

end EpochCipher
