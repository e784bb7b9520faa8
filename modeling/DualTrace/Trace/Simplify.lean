/-
# Simplification

The pass that replaces each equation of a trace by what the first rule that matches makes of it.
Binders, positions and the return atom stay; with the identities as rules, what is replaced becomes
an alias.
-/
import DualTrace.Rule
import DualTrace.Trace.Basic

namespace DualTrace

variable {α : Type} [Scalar α]

/-- An equation after the first rule that matches; its binder stays. -/
def Equation.simplifyWith (rules : List (Rule α)) (e : Equation α) : Equation α :=
  match Rule.applyFirst rules e.rhs with
  | some rhs => { e with rhs := rhs }
  | none => e

namespace Trace

/-- Simplify each equation with the first rule that matches it. -/
def simplifyWith (rules : List (Rule α)) (t : Trace α) : Trace α :=
  { t with equations := t.equations.map (Equation.simplifyWith rules) }

/-- Simplify each equation with the identities. -/
def simplify (t : Trace α) : Trace α := t.simplifyWith Rule.identities

/-- The number of equations that some rule matches. -/
def matchCount (rules : List (Rule α)) (t : Trace α) : Nat :=
  t.equations.countP fun e => (Rule.applyFirst rules e.rhs).isSome

end Trace

end DualTrace
