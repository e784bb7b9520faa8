/-
# Constant equations

An equation is constant when all its operands are literals.  `Trace.foldConstants` computes each
such equation and leaves an alias of the result in its place.  Aliases are left alone.
-/
import DualTrace.Trace.Basic

namespace DualTrace

variable {α : Type}

/-- The operands of an equation that is to be computed: all literals, and not an alias. -/
def Equation.constants? (e : Equation α) : Option (List α) :=
  if e.rhs.op = .id then none else e.rhs.args.mapM Atom.lit?

variable [Scalar α]

/-- An equation after folding.  It fails only where a constant equation has a wrong number of
operands. -/
def Equation.fold (e : Equation α) : Except (Error α) (Equation α) :=
  match e.constants? with
  | some xs => do
    let x ← e.rhs.op.eval xs
    return { e with rhs := ⟨.id, [.lit x]⟩ }
  | none => return e

namespace Trace

/-- Put an alias of its value in place of each constant equation. -/
def foldConstants (t : Trace α) : Except (Error α) (Trace α) := do
  return { t with equations := ← t.equations.mapM Equation.fold }

omit [Scalar α] in
/-- The number of equations to be computed. -/
def constantCount (t : Trace α) : Nat := t.equations.countP (·.constants?.isSome)

end Trace

end DualTrace
