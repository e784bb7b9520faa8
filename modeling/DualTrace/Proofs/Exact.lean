/-
# Exact arithmetic

The elements of a commutative ring are scalars as soon as they can be told apart.  Programs over
them compute without rounding, so the laws of algebra hold of their values.
-/
import DualTrace.Scalar
import Mathlib.Algebra.Ring.Defs
import Mathlib.Data.Nat.Cast.Defs

namespace DualTrace.Scalar

variable {α : Type} [CommRing α] [DecidableEq α]

/-- The elements of a commutative ring, compared by equality. -/
instance ofCommRing : Scalar α where

@[simp] theorem zero_eq : (zero : α) = 0 := Nat.cast_zero

@[simp] theorem one_eq : (one : α) = 1 := Nat.cast_one

end DualTrace.Scalar
