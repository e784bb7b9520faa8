/-
# Scalars

A program computes over numbers of some type `α`, and the rest of the library asks only three things
of them: the operations `+` and `*`, the test `==`, and the number that stands for each natural.
None of the laws of arithmetic is assumed, so the two floating-point types and any commutative ring
with decidable equality serve alike.
-/

namespace DualTrace

/-- The arithmetic of a program's numbers.  The test `==` need not be reflexive: a number that
differs from itself is allowed and never counts as equal to anything. -/
class Scalar (α : Type) extends Add α, Mul α, BEq α, NatCast α

namespace Scalar

variable {α : Type} [Scalar α]

/-- The number zero. -/
def zero : α := ((0 : Nat) : α)

/-- The number one. -/
def one : α := ((1 : Nat) : α)

/-- A condition holds when it is not zero and equals itself. -/
def truthy (c : α) : Bool := !(c == zero) && c == c

end Scalar

/-! ## Floating-point scalars -/

/-- Double precision, rounded to nearest; a natural becomes the nearest double. -/
instance : Scalar Float where
  natCast := Float.ofNat

/-- Single precision, rounded to nearest; a natural becomes the nearest single. -/
instance : Scalar Float32 where
  natCast := Float32.ofNat

end DualTrace
