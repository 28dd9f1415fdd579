import EpochCipher.Dimensions

/-!
This module contains the generator that the tables of a schedule are drawn from.

A plain congruential generator gives every seed the same sequence from another starting point. This
one also advances its multiplicand and its addend on every draw, so that its draws are the 1st, 3rd,
6th, 10th, ... values of the plain one.
-/

namespace EpochCipher

/--
The state of the generator. After `n` draws, `multiplicand` and `addend` are the coefficients of `n`
steps of the base map `x ↦ baseMultiplicand * x + baseAddend`.
-/
structure Generator where
  current : UInt64
  multiplicand : UInt64
  addend : UInt64
  deriving DecidableEq

abbrev Draw := StateM Generator

namespace Generator

def ofSeed (seed : UInt32) : Generator where
  current := seed.toUInt64
  multiplicand := 1
  addend := 0

/-- One draw: add a step to the coefficients, then apply the map that they now stand for. -/
def step (g : Generator) : Generator :=
  let addend := g.addend + baseAddend * g.multiplicand
  let multiplicand := baseMultiplicand * g.multiplicand
  { current := g.current * multiplicand + addend, multiplicand, addend }

def output (g : Generator) : UInt32 :=
  (g.current >>> 32).toUInt32

def advance : Nat → Generator → Generator
  | 0, g => g
  | n + 1, g => advance n g.step

@[simp]
theorem advance_zero (g : Generator) : advance 0 g = g := rfl

theorem advance_succ (n : Nat) (g : Generator) : advance (n + 1) g = advance n g.step := rfl

@[simp]
theorem advance_one (g : Generator) : advance 1 g = g.step := rfl

@[simp]
theorem advance_advance (m n : Nat) (g : Generator) :
    advance n (advance m g) = advance (m + n) g := by
  induction m generalizing g with
  | zero => simp
  | succ m ih =>
    rw [advance_succ]
    rw [ih]
    rw [Nat.succ_add]
    rw [advance_succ]

end Generator

namespace Draw

def eval (d : Draw α) (g : Generator) : α :=
  (d.run g).1

def next : Draw UInt32 :=
  modifyGet fun g => (g.step.output, g.step)

/-- Scale a 32-bit draw to the range below `bound`. The bound `0` gives `0`. -/
def scale (bound draw : UInt32) : UInt32 :=
  ((draw.toUInt64 * bound.toUInt64) >>> 32).toUInt32

def bounded (bound : UInt32) : Draw UInt32 :=
  return scale bound (← next)

def word : Draw UInt64 := do
  let high ← next
  let low ← next
  return high.toUInt64 <<< 32 ||| low.toUInt64

theorem run_pure (a : α) (g : Generator) : (pure a : Draw α).run g = (a, g) := rfl

theorem run_bind (d : Draw α) (f : α → Draw β) (g : Generator) :
    (d >>= f).run g = (f (d.run g).1).run (d.run g).2 := rfl

theorem eval_eq (d : Draw α) (g : Generator) : d.eval g = (d.run g).1 := rfl

theorem run_ofFnM {f : Fin n → Draw α} {k : Nat}
    (h : ∀ i g, ((f i).run g).2 = Generator.advance k g) (g : Generator) :
    (Vector.ofFnM f).run g
      =
    (Vector.ofFn fun i => ((f i).run (Generator.advance (k * i) g)).1,
      Generator.advance (k * n) g) := by
  induction n with
  | zero =>
    rw [Vector.ofFnM_zero]
    rw [run_pure]
    apply Prod.ext <;> simp
  | succ n ih =>
    rw [Vector.ofFnM_succ]
    rw [run_bind]
    rw [run_bind]
    rw [run_pure]
    rw [ih fun i => h i.castSucc]
    simp [h, Generator.advance_advance, Nat.mul_succ, Vector.ofFn_succ]
    rfl

@[simp]
theorem run_next (g : Generator) : next.run g = (g.step.output, g.step) := rfl

@[simp]
theorem run_word (g : Generator) :
    word.run g
      =
    (g.step.output.toUInt64 <<< 32 ||| g.step.step.output.toUInt64, g.step.step) := rfl

end Draw

end EpochCipher
