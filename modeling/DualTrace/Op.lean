/-
# The operations

A program computes with four operations of fixed arity.  Everything else, differentiation and
staging included, is expressed through them.
-/
import DualTrace.Scalar

namespace DualTrace

/-- The operations a program is made of. -/
inductive Op where
  /-- The sum of two operands. -/
  | add
  /-- The product of two operands. -/
  | mul
  /-- A choice: the second operand if the first one holds, else the third. -/
  | iif
  /-- The operand itself.  In a trace this makes an alias. -/
  | id
  deriving DecidableEq

namespace Op

/-- Every operation, in the order in which they are numbered. -/
def all : List Op := [add, mul, iif, id]

/-- The number of operands an operation takes. -/
def arity : Op → Nat
  | add | mul => 2
  | iif => 3
  | id => 1

/-- The name of an operation. -/
def name : Op → String
  | add => "add"
  | mul => "mul"
  | iif => "iif"
  | id => "id"

/-- The operation with exactly this name. -/
def ofName? (s : String) : Option Op := all.find? fun op => op.name == s

/-- The name of an operation denotes it. -/
theorem ofName?_name (op : Op) : ofName? op.name = some op := by
  cases op <;> rfl

/-- An operation is denoted by its name only. -/
theorem name_of_ofName? {s : String} {op : Op} (h : ofName? s = some op) : op.name = s := by
  simpa using List.find?_some h

/-- The number of an operation, counted from zero. -/
def position (op : Op) : Nat := all.idxOf op

variable {α : Type} [Scalar α]

/-- The result of an operation on numbers, `none` unless their count is its arity. -/
def eval? : Op → List α → Option α
  | add, [x, y] => some (x + y)
  | mul, [x, y] => some (x * y)
  | iif, [c, x, y] => some (if Scalar.truthy c then x else y)
  | id, [x] => some x
  | _, _ => none

/-- An operation has a result exactly on as many numbers as its arity. -/
theorem isSome_eval? (op : Op) (args : List α) :
    (op.eval? args).isSome ↔ args.length = op.arity := by
  cases op <;> rcases args with _ | ⟨x, _ | ⟨y, _ | ⟨z, _ | ⟨w, args⟩⟩⟩⟩ <;> simp [eval?, arity]

end Op

end DualTrace
