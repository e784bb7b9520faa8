/-
# Instructions

An instruction applies an operation to operands.  A running program issues instructions over values;
the equations of a trace hold instructions over atoms.  The number of operands is not part of the
type: whoever carries an instruction out checks it.
-/
import DualTrace.Op

namespace DualTrace

/-- An operation and its operands. -/
structure Instruction (β : Type) where
  op : Op
  args : List β
  deriving BEq

namespace Instruction

variable {β γ : Type}

/-- The text of an instruction, given the texts of its operands. -/
def text (operand : β → String) (i : Instruction β) : String :=
  "Insn(" ++ i.op.name ++ ": " ++ String.intercalate ", " (i.args.map operand) ++ ")"

/-- Replace every operand, stopping at the first failure. -/
def mapM {m : Type → Type} [Monad m] (f : β → m γ) (i : Instruction β) : m (Instruction γ) := do
  return ⟨i.op, ← i.args.mapM f⟩

end Instruction

end DualTrace
