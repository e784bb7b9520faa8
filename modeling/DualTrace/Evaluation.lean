/-
# Evaluation

The operations with their counts checked: carrying out an instruction on numbers, or giving the
reason why it cannot be done.  The count of operands is looked at before the operands themselves.
-/
import DualTrace.Error

namespace DualTrace

namespace Op

variable {α : Type}

/-- Refuse a count of operands that is not the arity. -/
def checkArity (op : Op) (actual : Nat) : Except (Error α) Unit :=
  if actual = op.arity then .ok () else .error (.wrongCount (.operands op) op.arity actual)

/-- The result of an operation on numbers, or the reason why there is none. -/
def eval [Scalar α] (op : Op) (args : List α) : Except (Error α) α :=
  match op.eval? args with
  | some x => .ok x
  | none => .error (.wrongCount (.operands op) op.arity args.length)

/-- The operation with this name, or the reason why there is none. -/
def parse (name : String) : Except (Error α) Op :=
  match ofName? name with
  | some op => .ok op
  | none => .error (.unknownOp name)

end Op

namespace Instruction

variable {α β : Type}

/-- Refuse an instruction whose operand count is not the arity of its operation. -/
def checkArity (i : Instruction β) : Except (Error α) Unit := i.op.checkArity i.args.length

/-- Carry an instruction out on numbers. -/
def evaluate [Scalar α] (i : Instruction (Value α)) : Except (Error α) (Value α) := do
  i.checkArity
  let args ← i.args.mapM fun v =>
    match v.num? with
    | some x => Except.ok x
    | none => .error (.notNumber i.op v)
  return .num (← i.op.eval args)

end Instruction

end DualTrace
