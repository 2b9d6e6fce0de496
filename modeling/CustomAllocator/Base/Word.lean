import Mathlib.Algebra.Group.Nat.Defs

/-!
# Unsigned 64-bit arithmetic on natural numbers

A machine word or an address is a natural number below `2 ^ 64`; every operation
reduces its result modulo `2 ^ 64`, so each place where an addition or subtraction
can wrap stays visible. The laws give the exact value when nothing wraps.
-/

namespace CustomAllocator.Base

/-- Wrapping addition. -/
def add64 (a b : Nat) : Nat := (a + b) % 2 ^ 64

/-- Wrapping subtraction of a word. -/
def sub64 (a b : Nat) : Nat := (a + 2 ^ 64 - b) % 2 ^ 64

/-- Wrapping multiplication. -/
def mul64 (a b : Nat) : Nat := a * b % 2 ^ 64

/-- Addition is exact below the modulus. -/
theorem add64_of_lt {a b : Nat} (h : a + b < 2 ^ 64) : add64 a b = a + b :=
  Nat.mod_eq_of_lt h

/-- Subtraction is exact when it does not borrow. -/
theorem sub64_of_le {a b : Nat} (h : b ≤ a) (ha : a < 2 ^ 64) : sub64 a b = a - b := by
  unfold sub64
  omega

/-- Multiplication is exact below the modulus. -/
theorem mul64_of_lt {a b : Nat} (h : a * b < 2 ^ 64) : mul64 a b = a * b :=
  Nat.mod_eq_of_lt h

/-- Every sum is a word. -/
theorem add64_lt (a b : Nat) : add64 a b < 2 ^ 64 := Nat.mod_lt _ (by decide)

end CustomAllocator.Base
